import WddProc.StringTable

/-!
# Values of a string with separators

`s_table_values_get` byte by byte: it copies into the `MAX_COLWIDTH + 1` bytes of `tmp_value` and
does not look at their number. What the loop meets depends on the memory from `values` on.
-/

namespace WddProc
namespace StringTable

structure Write where
  col : ℤ
  row : ℤ
  value : CString
  deriving DecidableEq

/-- The cell is in the table and the value is no longer than it. -/
def Write.Accepted (x y w : ℕ) (a : Write) : Prop :=
  (0 ≤ a.col ∧ a.col < x) ∧ (0 ≤ a.row ∧ a.row < y) ∧ a.value.length ≤ w

instance (x y w : ℕ) : DecidablePred (Write.Accepted x y w) := fun a =>
  inferInstanceAs (Decidable ((0 ≤ a.col ∧ a.col < x) ∧ (0 ≤ a.row ∧ a.row < y) ∧ a.value.length ≤ w))

/-- The first `n` values of a string with separators. -/
def tokens (separ : UInt8) : ℕ → Bytes → List CString
  | 0, _ => []
  | n+1, values =>
    let rest := (values.dropWhile (· ≠ separ)).dropWhile (· = separ)
    CString.ofMem (values.takeWhile (· ≠ separ)) :: if rest = [] then [] else tokens separ n rest

/-- Values side by side in row `xy` from column `s` on, or below each other in column `xy`. -/
def place (xy : ℤ) (type : Bool) : ℤ → List CString → List Write
  | _, [] => []
  | s, v :: vs => (if type then ⟨xy,s,v⟩ else ⟨s,xy,v⟩) :: place xy type (s + 1) vs

theorem value_mem_of_mem_place {xy s : ℤ} {type : Bool} {vs : List CString} {a : Write}
    (h : a ∈ place xy type s vs) : a.value ∈ vs := by
  induction vs generalizing s with
  | nil => cases h
  | cons v vs ih =>
    rcases List.mem_cons.mp h with rfl | h
    · cases type <;> exact List.mem_cons_self
    · exact List.mem_cons_of_mem v (ih h)

/-- The writes that a call comes to: it stops behind the first one that is not accepted. -/
def reached (x y w : ℕ) : List Write → List Write
  | [] => []
  | a :: as => a :: if a.Accepted x y w then reached x y w as else []

theorem reached_eq_take (x y w : ℕ) (as : List Write) :
    reached x y w as = as.take ((as.takeWhile (Write.Accepted x y w)).length + 1) := by
  induction as with
  | nil => rfl
  | cons a as ih =>
    rw [reached,List.take_succ_cons]
    by_cases ha : a.Accepted x y w
    · rw [if_pos ha,List.takeWhile_cons_of_pos (by simpa using ha),ih,List.length_cons]
    · rw [if_neg ha,List.takeWhile_cons_of_neg (by simpa using ha),List.length_nil,List.take_zero]

theorem mem_of_mem_reached {x y w : ℕ} {as : List Write} {a : Write} (h : a ∈ reached x y w as) :
    a ∈ as := by
  rw [reached_eq_take] at h
  exact List.mem_of_mem_take h

/-- What ends a call early: a store outside `tmp_value`, a read behind the memory of the values,
a write outside the cells. -/
inductive Fault
  | store | read | cell
  deriving DecidableEq

def inValue (separ b : UInt8) : Bool := b ≠ separ ∧ b ≠ 0

/-- The values that the loop meets in memory, at most `n`. Where the memory ends in a value, all
of its bytes are stored but no NUL, so the last one takes the place of the NUL. -/
def memTokens (separ : UInt8) : ℕ → Bytes → List CString
  | 0, _ => []
  | n+1, mem =>
    let tail := mem.dropWhile (inValue separ)
    let rest := tail.dropWhile (· = separ)
    if tail = [] then [CString.ofMem (mem.takeWhile (inValue separ)).dropLast]
    else CString.ofMem (mem.takeWhile (inValue separ)) ::
      if rest.headD 0 = 0 then [] else memTokens separ n rest

namespace InMemory

/-- The first loop of `s_table_values_get`, from place `i` of `value` on, and the NUL behind it. -/
def copyValue (separ : UInt8) : Bytes → ℕ → Bytes → Except Fault (Bytes × Bytes)
  | [], _, _ => .error .read
  | b :: mem, i, value =>
    if inValue separ b then
      match poke value i [b] with
      | some value => copyValue separ mem (i + 1) value
      | none => .error .store
    else
      match poke value i [0] with
      | some value => .ok (value,b :: mem)
      | none => .error .store

/-- The second loop of `s_table_values_get`. -/
def skipSepar (separ : UInt8) : Bytes → Except Fault Bytes
  | [] => .error .read
  | b :: mem => if b = separ then skipSepar separ mem else .ok (b :: mem)

/-- `s_table_values_get` with the memory from `values` on: the array after it and its result. -/
def sTableValuesGet (mem : Bytes) (separ : UInt8) (value : Bytes) :
    Except Fault (Bytes × Option Bytes) := do
  let v ← copyValue separ mem 0 value
  let rest ← skipSepar separ v.2
  .ok (v.1,if rest.headD 0 = 0 then none else some rest)

/-- At most `n` more rounds of the loop of `s_table_valuesetxs_ex`. -/
def valuesLoop (xy : ℤ) (separ : UInt8) (type : Bool) :
    ℕ → STable → ℤ → Bytes → ℕ → Except Fault (ℕ × STable)
  | 0, table, _, _, sum => .ok (sum,table)
  | n+1, table, s, mem, sum => do
    let v ← sTableValuesGet mem separ (List.replicate (MAX_COLWIDTH + 1) 0)
    match valuesSet table xy s type (CString.ofMem v.1) with
    | none => .error .cell
    | some r =>
      if r.1 = 0 then .ok (sum,r.2)
      else
        match v.2 with
        | none => .ok (sum + r.1,r.2)
        | some rest => valuesLoop xy separ type n r.2 (s + 1) rest (sum + r.1)

def sTableValuesetxsEx (table : STable) (xy s : ℤ) (mem : Bytes) (separ : UInt8) (type : Bool) :
    Except Fault (ℕ × STable) :=
  let wide := if type then table.tableY else table.tableX
  valuesLoop xy separ type (wide - s).toNat table s mem 0

theorem copyValue_eq (separ : UInt8) (mem pre suf : Bytes) :
    copyValue separ mem pre.length (pre ++ suf) =
      if mem.dropWhile (inValue separ) = [] then
        if suf.length < (mem.takeWhile (inValue separ)).length then .error .store else .error .read
      else if suf.length ≤ (mem.takeWhile (inValue separ)).length then .error .store
      else .ok (pre ++ mem.takeWhile (inValue separ) ++
        0 :: suf.drop ((mem.takeWhile (inValue separ)).length + 1),mem.dropWhile (inValue separ)) := by
  induction mem generalizing pre suf with
  | nil => simp [copyValue]
  | cons b mem ih =>
    rw [copyValue]
    by_cases hb : inValue separ b
    · rw [if_pos hb,List.takeWhile_cons_of_pos hb,List.dropWhile_cons_of_pos hb]
      cases suf with
      | nil =>
        have hfull : poke (pre ++ []) pre.length [b] = none := by simp [poke]
        rw [hfull]
        simp
      | cons c suf =>
        have hstore : poke (pre ++ c :: suf) pre.length [b] = some (pre ++ [b] ++ suf) := by
          simp [poke_append]
        have hnext := ih (pre ++ [b]) suf
        rw [List.length_append,List.length_singleton] at hnext
        rw [hstore,List.append_cons pre b (mem.takeWhile (inValue separ))]
        simp only [List.length_cons,Nat.add_lt_add_iff_right,Nat.add_le_add_iff_right,
          List.drop_succ_cons]
        exact hnext
    · rw [if_neg hb,poke_append,List.takeWhile_cons_of_neg hb,List.dropWhile_cons_of_neg hb]
      cases suf with
      | nil => simp
      | cons c suf => simp

theorem skipSepar_eq (separ : UInt8) (mem : Bytes) :
    skipSepar separ mem =
      if mem.dropWhile (· = separ) = [] then .error .read else .ok (mem.dropWhile (· = separ)) := by
  induction mem with
  | nil => rfl
  | cons b mem ih =>
    rw [skipSepar]
    by_cases hb : b = separ
    · rw [if_pos hb,ih,List.dropWhile_cons_of_pos (by simpa using hb)]
    · rw [if_neg hb,List.dropWhile_cons_of_neg (by simpa using hb),if_neg (List.cons_ne_nil b mem)]

/-- A value is copied when it and its NUL fit the array and the memory goes on behind it. -/
theorem sTableValuesGet_eq (separ : UInt8) {mem value tail rest : Bytes}
    (hvalue : mem.takeWhile (inValue separ) = value) (htail : mem.dropWhile (inValue separ) = tail)
    (hrest : tail.dropWhile (· = separ) = rest) :
    sTableValuesGet mem separ (List.replicate (MAX_COLWIDTH + 1) 0) =
      if tail = [] then if MAX_COLWIDTH + 1 < value.length then .error .store else .error .read
      else if MAX_COLWIDTH < value.length then .error .store
      else if rest = [] then .error .read
      else .ok (value ++ 0 :: List.replicate (MAX_COLWIDTH - value.length) 0,
        if rest.headD 0 = 0 then none else some rest) := by
  have hcopy := copyValue_eq separ mem [] (List.replicate (MAX_COLWIDTH + 1) 0)
  rw [List.length_nil,List.nil_append,List.length_replicate,List.nil_append,List.drop_replicate,
    Nat.add_sub_add_right,hvalue,htail] at hcopy
  rw [sTableValuesGet,hcopy]
  by_cases hend : tail = []
  · rw [if_pos hend,if_pos hend]
    split <;> rfl
  rw [if_neg hend,if_neg hend]
  by_cases hlong : MAX_COLWIDTH < value.length
  · rw [if_pos hlong,if_pos (Nat.succ_le_of_lt hlong)]
    rfl
  have hfit : ¬ MAX_COLWIDTH + 1 ≤ value.length := hlong
  rw [if_neg hlong,if_neg hfit]
  simp only [bind,Except.bind,skipSepar_eq,hrest]
  by_cases hnone : rest = []
  · rw [if_pos hnone,if_pos hnone]
  · rw [if_neg hnone,if_neg hnone]

end InMemory

/-- One write sets its cell when it is accepted and else changes nothing, and `P` follows what
the table shows after some writes. -/
def FollowsWrites (x y w : ℕ) (P : List Write → STable → Prop) : Prop :=
  ∀ as t (a : Write), P as t → -2^31 ≤ a.col ∧ a.col < 2^31 → -2^31 ≤ a.row ∧ a.row < 2^31 →
    if a.Accepted x y w then
      ∃ t', sTableValueset t (toUnsigned a.col) (toUnsigned a.row) (some a.value) = some (1,t') ∧
        P (as ++ [a]) t'
    else sTableValueset t (toUnsigned a.col) (toUnsigned a.row) (some a.value) = some (0,t)

theorem toUnsigned_lt_iff {z : ℤ} {n : ℕ} (hz : -2^31 ≤ z ∧ z < 2^31) (hn : n < 2^31) :
    ((0 : ℤ) ≤ toUnsigned z ∧ (toUnsigned z : ℤ) < n) ↔ 0 ≤ z ∧ z < n := by
  unfold toUnsigned
  omega

theorem toUnsigned_of_nonneg {z : ℤ} (hz : z < 2^31) (h₀ : 0 ≤ z) : (toUnsigned z : ℤ) = z := by
  unfold toUnsigned
  omega

theorem sTableValueset_rejected {t : STable} {i j : ℕ} {v : CString}
    (ha : ¬ Write.Accepted t.tableX t.tableY t.colwidth ⟨i,j,v⟩) :
    sTableValueset t i j (some v) = some (0,t) := by
  simp only [Write.Accepted,Int.ofNat_lt,Int.natCast_nonneg,true_and,not_and_or,not_le,not_lt] at ha
  simp only [sTableValueset]
  rcases ha with hi | hj | hv
  · rw [if_pos (Or.inl hi)]
  · rw [if_pos (Or.inr hj)]
  · rw [if_pos hv]
    split <;> rfl

theorem followsWrites_of {x y w : ℕ} {P : List Write → STable → Prop} (hx : x < 2^31) (hy : y < 2^31)
    (haccepted : ∀ as t (i j : ℕ) v, P as t → Write.Accepted x y w ⟨i,j,v⟩ →
      ∃ t', sTableValueset t i j (some v) = some (1,t') ∧ P (as ++ [⟨i,j,v⟩]) t')
    (hrejected : ∀ as t (i j : ℕ) v, P as t → ¬ Write.Accepted x y w ⟨i,j,v⟩ →
      sTableValueset t i j (some v) = some (0,t)) : FollowsWrites x y w P := by
  intro as t a h hcol hrow
  have hiff : Write.Accepted x y w ⟨toUnsigned a.col,toUnsigned a.row,a.value⟩ ↔ a.Accepted x y w := by
    simp only [Write.Accepted,toUnsigned_lt_iff hcol hx,toUnsigned_lt_iff hrow hy]
  split
  · rename_i ha
    obtain ⟨t',hset,h'⟩ := haccepted as t _ _ a.value h (hiff.mpr ha)
    rw [toUnsigned_of_nonneg hcol.2 ha.1.1,toUnsigned_of_nonneg hrow.2 ha.2.1.1] at h'
    exact ⟨t',hset,h'⟩
  · rename_i ha
    exact hrejected as t _ _ a.value h fun h' => ha (hiff.mp h')

/-- How the loop ends on these writes after it has made others: a value that is too long for
`tmp_value` is stored behind it; a NUL as separator may run over the end of the memory. -/
def Ends (x y w : ℕ) (P : List Write → STable → Prop) (separ : UInt8) (as : List Write) (sum : ℕ)
    (tried : List Write) (r : Except Fault (ℕ × STable)) : Prop :=
  if ∀ a ∈ reached x y w tried, a.value.length ≤ MAX_COLWIDTH then
    separ = 0 ∧ r = .error .read ∨
      ∃ t, r = .ok (sum + (tried.takeWhile (Write.Accepted x y w)).length,t) ∧
        P (as ++ tried.takeWhile (Write.Accepted x y w)) t
  else r = .error .store

variable {x y w : ℕ} {P : List Write → STable → Prop} {separ : UInt8} {as : List Write} {sum : ℕ}

theorem ends_nil {t : STable} (h : P as t) : Ends x y w P separ as sum [] (.ok (sum,t)) := by
  rw [Ends,if_pos (by simp [reached])]
  exact Or.inr ⟨t,rfl,by simpa using h⟩

theorem ends_long {a : Write} (h : MAX_COLWIDTH < a.value.length) (tried : List Write) :
    Ends x y w P separ as sum (a :: tried) (.error .store) := by
  rw [Ends,if_neg]
  intro hall
  exact Nat.not_le.mpr h (hall a (by simp [reached]))

theorem ends_read {a : Write} (h : a.value.length ≤ MAX_COLWIDTH) (hsep : separ = 0) :
    Ends x y w P separ as sum [a] (.error .read) := by
  rw [Ends,if_pos]
  · exact Or.inl ⟨hsep,rfl⟩
  · intro b hb
    have hba : b = a := by simpa [reached] using hb
    rw [hba]
    exact h

theorem ends_rejected {a : Write} (h : a.value.length ≤ MAX_COLWIDTH) (ha : ¬ a.Accepted x y w)
    (tried : List Write) {t : STable} (ht : P as t) :
    Ends x y w P separ as sum (a :: tried) (.ok (sum,t)) := by
  rw [Ends,if_pos,List.takeWhile_cons_of_neg (by simpa using ha)]
  · exact Or.inr ⟨t,rfl,by simpa using ht⟩
  · intro b hb
    have hba : b = a := by simpa [reached,ha] using hb
    rw [hba]
    exact h

theorem ends_accepted {a : Write} (h : a.value.length ≤ MAX_COLWIDTH) (ha : a.Accepted x y w)
    {tried : List Write} {r : Except Fault (ℕ × STable)}
    (hr : Ends x y w P separ (as ++ [a]) (sum + 1) tried r) :
    Ends x y w P separ as sum (a :: tried) r := by
  have hfits : (∀ b ∈ reached x y w (a :: tried), b.value.length ≤ MAX_COLWIDTH) ↔
      ∀ b ∈ reached x y w tried, b.value.length ≤ MAX_COLWIDTH := by
    rw [reached,if_pos ha,List.forall_mem_cons]
    exact and_iff_right h
  have hsum : sum + 1 + (tried.takeWhile (Write.Accepted x y w)).length =
      sum + (a :: tried.takeWhile (Write.Accepted x y w)).length := by
    rw [List.length_cons]
    omega
  rw [Ends,hsum,List.append_assoc,List.singleton_append] at hr
  rw [Ends,List.takeWhile_cons_of_pos (by simpa using ha),if_congr hfits rfl rfl]
  exact hr

theorem Ends.of_short {tried : List Write} {r : Except Fault (ℕ × STable)}
    (h : Ends x y w P separ as sum tried r) (hsep : separ ≠ 0)
    (hshort : ∀ a ∈ tried, a.value.length ≤ MAX_COLWIDTH) :
    ∃ t, r = .ok (sum + (tried.takeWhile (Write.Accepted x y w)).length,t) ∧
      P (as ++ tried.takeWhile (Write.Accepted x y w)) t := by
  rw [Ends,if_pos fun a ha => hshort a (mem_of_mem_reached ha)] at h
  exact h.resolve_left fun hread => hsep hread.1

namespace InMemory

theorem zero_notMem_takeWhile (separ : UInt8) (mem : Bytes) : 0 ∉ mem.takeWhile (inValue separ) := by
  intro h
  simpa [inValue] using List.mem_takeWhile_imp h

theorem zero_mem_dropWhile {p : UInt8 → Bool} (hp : ¬ p 0) {mem : Bytes} (h : 0 ∈ mem) :
    0 ∈ mem.dropWhile p := by
  rw [← List.takeWhile_append_dropWhile (p := p) (l := mem),List.mem_append] at h
  exact h.resolve_left fun h => hp (List.mem_takeWhile_imp h)

/-- The loop makes the writes of the values in memory, one after the other. -/
theorem valuesLoop_ends (hP : FollowsWrites x y w P) {xy : ℤ} (hxy : -2^31 ≤ xy ∧ xy < 2^31)
    (type : Bool) {n : ℕ} {s : ℤ} (hs : -2^31 ≤ s) (hn : s + n < 2^31) {mem : Bytes}
    (hmem : separ ≠ 0 → 0 ∈ mem) {t : STable} (h : P as t) :
    Ends x y w P separ as sum (place xy type s (memTokens separ n mem))
      (valuesLoop xy separ type n t s mem sum) := by
  induction n generalizing s mem t as sum with
  | zero => exact ends_nil h
  | succ n ih =>
    let value := mem.takeWhile (inValue separ)
    let tail := mem.dropWhile (inValue separ)
    let rest := tail.dropWhile (· = separ)
    let a (v : CString) : Write := if type then ⟨xy,s,v⟩ else ⟨s,xy,v⟩
    have hplace (v : CString) (vs : List CString) :
        place xy type s (v :: vs) = a v :: place xy type (s + 1) vs := rfl
    have hlen (v : CString) : (a v).value.length = v.length := by cases type <;> rfl
    have hfree : 0 ∉ value := zero_notMem_takeWhile separ mem
    have htail0 (hne : separ ≠ 0) : 0 ∈ tail := zero_mem_dropWhile (by simp [inValue]) (hmem hne)
    have hrest0 (hne : separ ≠ 0) : 0 ∈ rest :=
      zero_mem_dropWhile (by simpa using fun h0 => hne h0.symm) (htail0 hne)
    have hget := @sTableValuesGet_eq separ mem value tail rest rfl rfl rfl
    by_cases htail : tail = []
    · -- the memory ends in the value
      have hsep : separ = 0 := by
        by_contra hne
        exact List.ne_nil_of_mem (htail0 hne) htail
      have htokens : memTokens separ (n + 1) mem = [CString.ofMem value.dropLast] := if_pos htail
      have hcut : (CString.ofMem value.dropLast).length = value.length - 1 := by
        rw [CString.length,CString.ofMem_bytes,
          cstr_of_nulFree fun h0 => hfree (List.dropLast_subset value h0),List.length_dropLast]
      rw [if_pos htail] at hget
      rw [htokens,hplace,valuesLoop,hget]
      by_cases hlong : MAX_COLWIDTH + 1 < value.length
      · rw [if_pos hlong]
        exact ends_long (by rw [hlen,hcut]; omega) _
      · rw [if_neg hlong]
        exact ends_read (by rw [hlen,hcut]; omega) hsep
    have hvalue : (CString.ofMem value).length = value.length := by
      rw [CString.length,CString.ofMem_bytes,cstr_of_nulFree hfree]
    have htokens : memTokens separ (n + 1) mem = CString.ofMem value ::
        if rest.headD 0 = 0 then [] else memTokens separ n rest := if_neg htail
    rw [if_neg htail] at hget
    rw [htokens,hplace,valuesLoop,hget]
    by_cases hlong : MAX_COLWIDTH < value.length
    · rw [if_pos hlong]
      exact ends_long (by rw [hlen,hvalue]; exact hlong) _
    have hshort : (a (CString.ofMem value)).value.length ≤ MAX_COLWIDTH := by
      rw [hlen,hvalue]
      exact Nat.le_of_not_lt hlong
    rw [if_neg hlong]
    by_cases hrest : rest = []
    · -- the separators reach the end of the memory
      have hsep : separ = 0 := by
        by_contra hne
        exact List.ne_nil_of_mem (hrest0 hne) hrest
      rw [if_pos hrest,hrest,List.headD_nil,if_pos rfl]
      exact ends_read hshort hsep
    have hs' : -2^31 ≤ s ∧ s < 2^31 := ⟨hs,by push_cast at hn; omega⟩
    have hwrite := hP as t (a (CString.ofMem value)) h (by cases type <;> assumption)
      (by cases type <;> assumption)
    have hset : valuesSet t xy s type (CString.ofMem value) = sTableValueset t
        (toUnsigned (a (CString.ofMem value)).col) (toUnsigned (a (CString.ofMem value)).row)
        (some (a (CString.ofMem value)).value) := by
      cases type <;> rfl
    rw [if_neg hrest]
    simp only [bind,Except.bind,CString.ofMem_append_nul,hset]
    by_cases ha : (a (CString.ofMem value)).Accepted x y w
    · rw [if_pos ha] at hwrite
      obtain ⟨t',hwritten,h'⟩ := hwrite
      rw [hwritten]
      apply ends_accepted hshort ha
      by_cases hlast : rest.headD 0 = 0
      · simp only [one_ne_zero,if_false,if_pos hlast]
        exact ends_nil h'
      · simp only [one_ne_zero,if_false,if_neg hlast]
        exact ih (by omega) (by push_cast at hn; omega) hrest0 h'
    · rw [if_neg ha] at hwrite
      rw [hwrite]
      exact ends_rejected hshort ha _ h

theorem scan_values (separ : UInt8) {values : Bytes} (hnul : 0 ∉ values) (behind : Bytes) :
    (values ++ 0 :: behind).takeWhile (inValue separ) = values.takeWhile (· ≠ separ) ∧
      (values ++ 0 :: behind).dropWhile (inValue separ) =
        values.dropWhile (· ≠ separ) ++ 0 :: behind := by
  induction values with
  | nil => simp [inValue]
  | cons b values ih =>
    have hb : b ≠ 0 := fun h => hnul (h ▸ List.mem_cons_self)
    obtain ⟨htake,hdrop⟩ := ih fun h => hnul (List.mem_cons_of_mem b h)
    by_cases hs : b = separ
    · simp [inValue,hs]
    · simp [inValue,hs,hb,htake,hdrop]

theorem skip_values (hsep : separ ≠ 0) (values behind : Bytes) :
    (values ++ 0 :: behind).dropWhile (· = separ) = values.dropWhile (· = separ) ++ 0 :: behind := by
  induction values with
  | nil => simpa using fun h => absurd h.symm hsep
  | cons b values ih =>
    by_cases hb : b = separ
    · simp [hb,ih]
    · simp [hb]

theorem headD_values {values : Bytes} (hnul : 0 ∉ values) (behind : Bytes) :
    (values ++ 0 :: behind).headD 0 = 0 ↔ values = [] := by
  cases values with
  | nil => simp
  | cons b values => simpa using fun h : b = 0 => hnul (h ▸ List.mem_cons_self)

theorem zero_notMem_rest {values : Bytes} (hnul : 0 ∉ values) :
    0 ∉ (values.dropWhile (· ≠ separ)).dropWhile (· = separ) := fun h0 =>
  hnul ((List.dropWhile_sublist _).subset ((List.dropWhile_sublist _).subset h0))

theorem memTokens_values (hsep : separ ≠ 0) (n : ℕ) {values : Bytes} (hnul : 0 ∉ values)
    (behind : Bytes) : memTokens separ n (values ++ 0 :: behind) = tokens separ n values := by
  induction n generalizing values with
  | zero => rfl
  | succ n ih =>
    obtain ⟨htake,hdrop⟩ := scan_values separ hnul behind
    let rest := (values.dropWhile (· ≠ separ)).dropWhile (· = separ)
    have hfree : 0 ∉ rest := zero_notMem_rest hnul
    simp only [memTokens,tokens,htake,hdrop,skip_values hsep]
    rw [if_neg (by simp)]
    congr 1
    exact if_congr (headD_values hfree behind) rfl (ih hfree)

/-- For a string and a separator that is no NUL, what is behind the string is never read. -/
theorem valuesLoop_values (hsep : separ ≠ 0) (xy : ℤ) (type : Bool) (n : ℕ) (t : STable) (s : ℤ)
    {values : Bytes} (hnul : 0 ∉ values) (behind : Bytes) (sum : ℕ) :
    StringTable.valuesLoop xy separ type n t s values sum =
      (valuesLoop xy separ type n t s (values ++ 0 :: behind) sum).toOption := by
  induction n generalizing t s values sum with
  | zero => rfl
  | succ n ih =>
    obtain ⟨htake,hdrop⟩ := scan_values separ hnul behind
    let rest := (values.dropWhile (· ≠ separ)).dropWhile (· = separ)
    have hfree : 0 ∉ rest := zero_notMem_rest hnul
    have hget := sTableValuesGet_eq separ htake hdrop (skip_values hsep _ behind)
    rw [StringTable.valuesLoop,valuesLoop,hget,if_neg (by simp)]
    simp only [StringTable.sTableValuesGet,hsep,false_or]
    by_cases hlong : MAX_COLWIDTH < (values.takeWhile (· ≠ separ)).length
    · rw [if_pos hlong,if_pos hlong]
      rfl
    have hends : rest ++ 0 :: behind ≠ [] := by simp
    rw [if_neg hlong,if_neg hlong,if_neg hends,if_congr (headD_values hfree behind) rfl rfl]
    simp only [Option.bind_some,bind,Except.bind,CString.ofMem_append_nul]
    cases hset : valuesSet t xy s type (CString.ofMem (values.takeWhile (· ≠ separ))) with
    | none => rfl
    | some r =>
      rw [Option.bind_some]
      simp only
      by_cases h0 : r.1 = 0
      · rw [if_pos h0,if_pos h0]
        rfl
      rw [if_neg h0,if_neg h0]
      by_cases hrest : rest = []
      · rw [if_pos hrest,if_pos hrest]
        rfl
      · rw [if_neg hrest,if_neg hrest]
        exact ih r.2 (s + 1) hfree (sum + r.1)

end InMemory

end StringTable
end WddProc
