import WddProc.CJsonGrammar

/-!
# Minifying in place

`cJSON_Minify` reads a text with one pointer and writes what stays of it with another one
that lags behind, so nothing is overwritten before it is read. What stays are the strings and
the bytes that belong to no blank and no comment.
-/

namespace WddProc
namespace Minify

/-- The block, and where the next byte is read from and written to. The write pointer never
overtakes the read pointer. -/
structure Cursor where
  mem : Bytes
  json : ℕ
  into : ℕ
  behind : into ≤ json

namespace Cursor

def start (m : Bytes) : Cursor := ⟨m,0,0,Nat.le_refl 0⟩

def peek (c : Cursor) (i : ℕ) : Outcome UInt8 :=
  match c.mem[c.json + i]? with
  | none => .fault
  | some b => .done b

def advance (c : Cursor) (n : ℕ) : Cursor :=
  ⟨c.mem,c.json + n,c.into,c.behind.trans (Nat.le_add_right _ _)⟩

/-- `*into++ = *json++`. -/
def copy (c : Cursor) : Outcome Cursor := do
  let b ← c.peek 0
  if c.into < c.mem.length then
    .done ⟨c.mem.set c.into b,c.json + 1,c.into + 1,Nat.succ_le_succ c.behind⟩
  else .fault

end Cursor

/-- `while (*json && *json != '\n') json++`. -/
def lineComment : ℕ → Cursor → Outcome Cursor
  | 0, _ => .fault
  | f+1, c => do
    let b ← c.peek 0
    if b ≠ 0 ∧ b ≠ 10 then lineComment f (c.advance 1) else .done c

/-- `while (*json && !(*json == '*' && json[1] == '/')) json++; json += 2`. -/
def blockComment : ℕ → Cursor → Outcome Cursor
  | 0, _ => .fault
  | f+1, c => do
    let b ← c.peek 0
    if b = 0 then .done (c.advance 2)
    else if b = 42 then do
      let d ← c.peek 1
      if d = 47 then .done (c.advance 2) else blockComment f (c.advance 1)
    else blockComment f (c.advance 1)

/-- The loop over a string literal, up to its closing quote. -/
def stringLiteral : ℕ → Cursor → Outcome Cursor
  | 0, _ => .fault
  | f+1, c => do
    let b ← c.peek 0
    if b = 0 ∨ b = 34 then .done c
    else if b = 92 then do
      let c ← c.copy
      let c ← c.copy
      stringLiteral f c
    else do
      let c ← c.copy
      stringLiteral f c

/-- The bytes that are dropped one by one. -/
def White (b : UInt8) : Prop := b = 32 ∨ b = 9 ∨ b = 13 ∨ b = 10

instance (b : UInt8) : Decidable (White b) := inferInstanceAs (Decidable (_ ∨ _))

/-- The loop of `cJSON_Minify`. -/
def loop : ℕ → Cursor → Outcome Cursor
  | 0, _ => .fault
  | f+1, c => do
    let b ← c.peek 0
    if b = 0 then .done c
    else if White b then loop f (c.advance 1)
    else if b = 47 then do
      let d ← c.peek 1
      if d = 47 then do
        let c ← lineComment c.mem.length c
        loop f c
      else if d = 42 then do
        let c ← blockComment c.mem.length c
        loop f c
      else do
        let c ← c.copy
        loop f c
    else if b = 34 then do
      let c ← c.copy
      let c ← stringLiteral c.mem.length c
      let c ← c.copy
      loop f c
    else do
      let c ← c.copy
      loop f c

/-- `cJSON_Minify` on the block at `json`. -/
def cJSONMinify (m : Bytes) : Outcome Bytes := do
  let c ← loop (m.length + 1) (.start m)
  if c.into < c.mem.length then .done (c.mem.set c.into 0) else .fault

/-- On the way from `c` to `d` the read pointer goes on, and what is still to be read is as it
was. -/
structure Cursor.Onward (c d : Cursor) : Prop where
  read : c.json ≤ d.json
  unread : d.mem.drop d.json = c.mem.drop d.json

namespace Cursor

variable {c d e : Cursor}

theorem Onward.refl (c : Cursor) : c.Onward c := ⟨le_rfl,rfl⟩

theorem Onward.trans (h : c.Onward d) (h' : d.Onward e) : c.Onward e where
  read := h.read.trans h'.read
  unread := by
    have hdrop := congrArg (List.drop (e.json - d.json)) h.unread
    rw [List.drop_drop,List.drop_drop,Nat.add_sub_cancel' h'.read] at hdrop
    exact h'.unread.trans hdrop

theorem advance_onward (c : Cursor) (n : ℕ) : c.Onward (c.advance n) := ⟨Nat.le_add_right _ _,rfl⟩

theorem onward_bind {o : Outcome Cursor} {k : Cursor → Outcome Cursor} (ho : Outcome.Post c.Onward o)
    (hk : ∀ d, Outcome.Post d.Onward (k d)) : Outcome.Post c.Onward (o >>= k) :=
  ho.bind fun d hd => (hk d).mono fun _ => hd.trans

theorem onward_advance {n : ℕ} {o : Outcome Cursor} (ho : Outcome.Post (c.advance n).Onward o) :
    Outcome.Post c.Onward o :=
  ho.mono fun _ => (c.advance_onward n).trans

theorem onward_peek {i : ℕ} {k : UInt8 → Outcome Cursor} (hk : ∀ b, Outcome.Post c.Onward (k b)) :
    Outcome.Post c.Onward (c.peek i >>= k) :=
  Outcome.Post.bind (P := fun _ => True) (fun _ _ => trivial) fun b _ => hk b

theorem copy_onward (c : Cursor) : Outcome.Post c.Onward c.copy := by
  unfold copy
  refine onward_peek fun b => Outcome.post_ite (fun _ => ?_) fun _ => Outcome.post_fault
  exact Outcome.post_done.mpr ⟨Nat.le_succ _,List.drop_set_of_lt (Nat.lt_succ_of_le c.behind)⟩

end Cursor

open Cursor in
theorem lineComment_onward (f : ℕ) (c : Cursor) : Outcome.Post c.Onward (lineComment f c) := by
  induction f generalizing c with
  | zero => exact Outcome.post_fault
  | succ f ih =>
    unfold lineComment
    refine onward_peek fun b => Outcome.post_ite (fun _ => ?_) fun _ => ?_
    · exact onward_advance (ih _)
    · exact Outcome.post_done.mpr (.refl c)

open Cursor in
theorem blockComment_onward (f : ℕ) (c : Cursor) : Outcome.Post c.Onward (blockComment f c) := by
  induction f generalizing c with
  | zero => exact Outcome.post_fault
  | succ f ih =>
    have hnext : Outcome.Post c.Onward (blockComment f (c.advance 1)) := onward_advance (ih _)
    have hend : Outcome.Post c.Onward (.done (c.advance 2)) := Outcome.post_done.mpr (c.advance_onward 2)
    unfold blockComment
    refine onward_peek fun b => Outcome.post_ite (fun _ => hend) fun _ => ?_
    refine Outcome.post_ite (fun _ => ?_) fun _ => hnext
    exact onward_peek fun d => Outcome.post_ite (fun _ => hend) fun _ => hnext

open Cursor in
theorem stringLiteral_onward (f : ℕ) (c : Cursor) : Outcome.Post c.Onward (stringLiteral f c) := by
  induction f generalizing c with
  | zero => exact Outcome.post_fault
  | succ f ih =>
    unfold stringLiteral
    refine onward_peek fun b => Outcome.post_ite (fun _ => Outcome.post_done.mpr (.refl c)) fun _ => ?_
    refine Outcome.post_ite (fun _ => ?_) fun _ => onward_bind c.copy_onward ih
    exact onward_bind c.copy_onward fun d => onward_bind d.copy_onward ih

open Cursor in
/-- One round of the loop is a skip, a comment or some copies. -/
theorem loop_onward (f : ℕ) (c : Cursor) : Outcome.Post c.Onward (loop f c) := by
  induction f generalizing c with
  | zero => exact Outcome.post_fault
  | succ f ih =>
    have hcopy : Outcome.Post c.Onward (c.copy >>= loop f) := onward_bind c.copy_onward ih
    unfold loop
    refine onward_peek fun b => Outcome.post_ite (fun _ => Outcome.post_done.mpr (.refl c)) fun _ => ?_
    refine Outcome.post_ite (fun _ => onward_advance (ih _)) fun _ => ?_
    refine Outcome.post_ite (fun _ => onward_peek fun d => ?_) fun _ => Outcome.post_ite (fun _ => ?_) fun _ => hcopy
    · refine Outcome.post_ite (fun _ => onward_bind (lineComment_onward _ c) ih) fun _ => ?_
      exact Outcome.post_ite (fun _ => onward_bind (blockComment_onward _ c) ih) fun _ => hcopy
    · refine onward_bind c.copy_onward fun d => onward_bind (stringLiteral_onward _ d) fun e => ?_
      exact onward_bind e.copy_onward ih

/-- A string literal between its quotes. -/
inductive Quoted : Bytes → Prop
  | nil : Quoted []
  | plain {b : UInt8} {m : Bytes} : b ≠ 0 → b ≠ 34 → b ≠ 92 → Quoted m → Quoted (b :: m)
  | escaped {e : UInt8} {m : Bytes} : e ≠ 0 → Quoted m → Quoted (92 :: e :: m)

/-- No comment ends inside. -/
inductive Unended : Bytes → Prop
  | nil : Unended []
  | cons {b : UInt8} {m : Bytes} : b ≠ 0 → (b = 42 → m.head? ≠ some 47) → Unended m → Unended (b :: m)

/-- `Minifies m n`: every string and comment of `m` is closed, and `n` is what stays of `m`. -/
inductive Minifies : Bytes → Bytes → Prop
  | nil : Minifies [] []
  | white {b : UInt8} {m n : Bytes} : White b → Minifies m n → Minifies (b :: m) n
  | line {c m n : Bytes} : 0 ∉ c → 10 ∉ c → (∀ b ∈ m.head?, b = 10) → Minifies m n →
      Minifies (47 :: 47 :: (c ++ m)) n
  | block {c m n : Bytes} : Unended (42 :: c) → Minifies m n →
      Minifies (47 :: 42 :: (c ++ 42 :: 47 :: m)) n
  -- the star that opens the comment counts for its end as well
  | short {m n : Bytes} : Minifies m n → Minifies (47 :: 42 :: 47 :: m) n
  | string {s m n : Bytes} : Quoted s → Minifies m n →
      Minifies (34 :: (s ++ 34 :: m)) (34 :: (s ++ 34 :: n))
  | byte {b : UInt8} {m n : Bytes} : b ≠ 0 → ¬ White b → b ≠ 34 →
      (b = 47 → m.head? ≠ some 47 ∧ m.head? ≠ some 42) → Minifies m n → Minifies (b :: m) (b :: n)

/-- `out` has been written, the bytes of `gap` are stale and `m` is still to be read. -/
def place (out gap m : Bytes) : Cursor :=
  ⟨out ++ (gap ++ m),out.length + gap.length,out.length,Nat.le_add_right _ _⟩

section place

variable (out gap m : Bytes)

theorem place_length : (place out gap m).mem.length = out.length + gap.length + m.length := by
  simp [place,Nat.add_assoc]

theorem peek_place (i : ℕ) : (place out gap m).peek i =
    match m[i]? with
    | none => .fault
    | some b => .done b := by
  have hget : (out ++ (gap ++ m))[out.length + gap.length + i]? = m[i]? := by
    rw [Nat.add_assoc,List.getElem?_append_right (Nat.le_add_right _ _),Nat.add_sub_cancel_left,
      List.getElem?_append_right (Nat.le_add_right _ _),Nat.add_sub_cancel_left]
  rw [Cursor.peek,place,hget]

@[simp] theorem peek_zero (b : UInt8) : (place out gap (b :: m)).peek 0 = .done b := peek_place _ _ _ 0
@[simp] theorem peek_one (b d : UInt8) : (place out gap (b :: d :: m)).peek 1 = .done d := peek_place _ _ _ 1

theorem advance_append (x : Bytes) : (place out gap (x ++ m)).advance x.length = place out (gap ++ x) m := by
  simp [place,Cursor.advance,Nat.add_assoc]

@[simp] theorem advance_cons (b : UInt8) : (place out gap (b :: m)).advance 1 = place out (gap ++ [b]) m :=
  advance_append out gap m [b]

theorem advance_cons_cons (b d : UInt8) :
    (place out gap (b :: d :: m)).advance 2 = place out (gap ++ [b,d]) m :=
  advance_append out gap m [b,d]

theorem copy_cons (b : UInt8) : ∃ gap' : Bytes, gap'.length = gap.length ∧
    (place out gap (b :: m)).copy = .done (place (out ++ [b]) gap' m) := by
  have hlt : out.length < (out ++ (gap ++ b :: m)).length := by simp
  have hset (c : UInt8) (l : Bytes) : (out ++ c :: l).set out.length b = out ++ b :: l := by
    rw [List.set_append_right _ _ (Nat.le_refl _),Nat.sub_self,List.set_cons_zero]
  have hcopy : (place out gap (b :: m)).copy = .done ⟨(out ++ (gap ++ b :: m)).set out.length b,
      out.length + gap.length + 1,out.length + 1,Nat.succ_le_succ (Nat.le_add_right _ _)⟩ := by
    rw [Cursor.copy,peek_zero]
    exact if_pos hlt
  cases gap with
  | nil =>
    refine ⟨[],rfl,?_⟩
    rw [hcopy,List.nil_append,hset]
    simp [place]
  | cons c gap =>
    refine ⟨gap ++ [b],by simp,?_⟩
    rw [hcopy,List.cons_append,hset]
    simp [place]
    omega

end place

theorem lineComment_place {c : Bytes} (h₀ : 0 ∉ c) (h₁₀ : 10 ∉ c) {b : UInt8} (hb : b = 0 ∨ b = 10)
    (out gap m : Bytes) {f : ℕ} (hf : c.length < f) :
    lineComment f (place out gap (c ++ b :: m)) = .done (place out (gap ++ c) (b :: m)) := by
  induction c generalizing gap f with
  | nil =>
    obtain ⟨f,rfl⟩ : ∃ g, f = g + 1 := ⟨f - 1,by omega⟩
    rw [List.nil_append,lineComment,peek_zero,List.append_nil]
    refine if_neg fun h => ?_
    exact hb.elim h.1 h.2
  | cons d c ih =>
    rw [List.length_cons] at hf
    obtain ⟨f,rfl⟩ : ∃ g, f = g + 1 := ⟨f - 1,by omega⟩
    simp only [List.mem_cons,not_or] at h₀ h₁₀
    have hstep : lineComment (f + 1) (place out gap (d :: (c ++ b :: m))) =
        lineComment f (place out (gap ++ [d]) (c ++ b :: m)) := by
      rw [lineComment,peek_zero,← advance_cons]
      exact if_pos ⟨Ne.symm h₀.1,Ne.symm h₁₀.1⟩
    rw [List.cons_append,hstep,ih h₀.2 h₁₀.2 _ (by omega),List.append_assoc,List.singleton_append]

theorem blockComment_step {b : UInt8} (h₀ : b ≠ 0) {m : Bytes} (hm : m ≠ []) (h : b = 42 → m.head? ≠ some 47)
    (out gap : Bytes) (f : ℕ) :
    blockComment (f + 1) (place out gap (b :: m)) = blockComment f (place out (gap ++ [b]) m) := by
  rw [blockComment,peek_zero]
  simp only [Outcome.done_bind,if_neg h₀,advance_cons]
  by_cases h₄₂ : b = 42
  · obtain ⟨d,m,rfl⟩ := List.exists_cons_of_ne_nil hm
    have hd : d ≠ 47 := by simpa using h h₄₂
    rw [if_pos h₄₂,peek_one,Outcome.done_bind,if_neg hd]
  · rw [if_neg h₄₂]

theorem blockComment_place {c : Bytes} (hc : Unended c) (out gap m : Bytes) {f : ℕ} (hf : c.length < f) :
    blockComment f (place out gap (c ++ 42 :: 47 :: m)) = .done (place out (gap ++ (c ++ [42,47])) m) := by
  induction hc generalizing gap f with
  | nil =>
    obtain ⟨f,rfl⟩ : ∃ g, f = g + 1 := ⟨f - 1,by omega⟩
    simp only [List.nil_append,blockComment,peek_zero,peek_one,Outcome.done_bind,advance_cons_cons]
    rfl
  | @cons b c h₀ h _ ih =>
    rw [List.length_cons] at hf
    obtain ⟨f,rfl⟩ : ∃ g, f = g + 1 := ⟨f - 1,by omega⟩
    have hnext : b = 42 → (c ++ 42 :: 47 :: m).head? ≠ some 47 := by
      intro hb
      cases c with
      | nil => simp
      | cons d c => exact h hb
    rw [List.cons_append,blockComment_step h₀ (by simp) hnext,ih _ (by omega)]
    simp

theorem stringLiteral_place {s : Bytes} (hs : Quoted s) (out gap m : Bytes) {f : ℕ} (hf : s.length < f) :
    ∃ gap' : Bytes, gap'.length = gap.length ∧
      stringLiteral f (place out gap (s ++ 34 :: m)) = .done (place (out ++ s) gap' (34 :: m)) := by
  induction hs generalizing out gap f with
  | nil =>
    obtain ⟨f,rfl⟩ : ∃ g, f = g + 1 := ⟨f - 1,by omega⟩
    refine ⟨gap,rfl,?_⟩
    rw [List.nil_append,stringLiteral,peek_zero,List.append_nil]
    rfl
  | @plain b s h₀ h₃₄ h₉₂ _ ih =>
    rw [List.length_cons] at hf
    obtain ⟨f,rfl⟩ : ∃ g, f = g + 1 := ⟨f - 1,by omega⟩
    obtain ⟨gap₁,hlen₁,hcopy⟩ := copy_cons out gap (s ++ 34 :: m) b
    obtain ⟨gap₂,hlen₂,hrest⟩ := ih (out ++ [b]) gap₁ (f := f) (by omega)
    refine ⟨gap₂,hlen₂.trans hlen₁,?_⟩
    rw [List.cons_append,stringLiteral,peek_zero,Outcome.done_bind,if_neg (by tauto),if_neg h₉₂,hcopy,
      Outcome.done_bind,hrest,List.append_assoc,List.singleton_append]
  | @escaped e s h₀ _ ih =>
    simp only [List.length_cons] at hf
    obtain ⟨f,rfl⟩ : ∃ g, f = g + 1 := ⟨f - 1,by omega⟩
    obtain ⟨gap₁,hlen₁,hcopy₁⟩ := copy_cons out gap (e :: (s ++ 34 :: m)) 92
    obtain ⟨gap₂,hlen₂,hcopy₂⟩ := copy_cons (out ++ [92]) gap₁ (s ++ 34 :: m) e
    obtain ⟨gap₃,hlen₃,hrest⟩ := ih (out ++ [92] ++ [e]) gap₂ (f := f) (by omega)
    refine ⟨gap₃,by rw [hlen₃,hlen₂,hlen₁],?_⟩
    rw [List.cons_append,List.cons_append,stringLiteral,peek_zero,Outcome.done_bind,if_neg (by decide),
      if_pos rfl,hcopy₁,Outcome.done_bind,hcopy₂,Outcome.done_bind,hrest,List.append_assoc,List.append_assoc]
    rfl

section round

variable (out gap : Bytes) (f : ℕ)

theorem loop_nul (m : Bytes) : loop (f + 1) (place out gap (0 :: m)) = .done (place out gap (0 :: m)) := by
  rw [loop,peek_zero,Outcome.done_bind,if_pos rfl]

theorem loop_white {b : UInt8} (hb : White b) (m : Bytes) :
    loop (f + 1) (place out gap (b :: m)) = loop f (place out (gap ++ [b]) m) := by
  have h₀ : b ≠ 0 := by rintro rfl; exact absurd hb (by decide)
  rw [loop,peek_zero,Outcome.done_bind,if_neg h₀,if_pos hb,advance_cons]

theorem loop_slash (d : UInt8) (m : Bytes) : loop (f + 1) (place out gap (47 :: d :: m)) =
    (if d = 47 then lineComment (place out gap (47 :: d :: m)).mem.length (place out gap (47 :: d :: m))
      else if d = 42 then blockComment (place out gap (47 :: d :: m)).mem.length (place out gap (47 :: d :: m))
      else (place out gap (47 :: d :: m)).copy) >>= loop f := by
  rw [loop,peek_zero,Outcome.done_bind,if_neg (by decide),if_neg (by decide),if_pos rfl,peek_one,
    Outcome.done_bind]
  split_ifs <;> rfl

theorem loop_line {c : Bytes} (h₀ : 0 ∉ c) (h₁₀ : 10 ∉ c) {b : UInt8} (hb : b = 0 ∨ b = 10) (m : Bytes) :
    loop (f + 1) (place out gap (47 :: 47 :: (c ++ b :: m))) =
      loop f (place out (gap ++ 47 :: 47 :: c) (b :: m)) := by
  have hline := lineComment_place (c := 47 :: 47 :: c) (by simpa using h₀) (by simpa using h₁₀) hb out gap m
    (f := (place out gap (47 :: 47 :: (c ++ b :: m))).mem.length) (by rw [place_length]; simp; omega)
  rw [loop_slash,if_pos rfl]
  exact congrArg (· >>= loop f) hline

theorem loop_block {c : Bytes} (hc : Unended (42 :: c)) (m : Bytes) :
    loop (f + 1) (place out gap (47 :: 42 :: (c ++ 42 :: 47 :: m))) =
      loop f (place out (gap ++ 47 :: 42 :: (c ++ [42,47])) m) := by
  have hblock := blockComment_place (.cons (b := 47) (by decide) (by simp) hc) out gap m
    (f := (place out gap (47 :: 42 :: (c ++ 42 :: 47 :: m))).mem.length) (by rw [place_length]; simp; omega)
  rw [loop_slash,if_neg (by decide),if_pos rfl]
  exact congrArg (· >>= loop f) hblock

theorem loop_short (m : Bytes) :
    loop (f + 1) (place out gap (47 :: 42 :: 47 :: m)) = loop f (place out (gap ++ [47,42,47]) m) := by
  have hblock := blockComment_place (.cons (b := 47) (by decide) (by simp) .nil) out gap m
    (f := (place out gap (47 :: 42 :: 47 :: m)).mem.length) (by rw [place_length]; simp; omega)
  rw [loop_slash,if_neg (by decide),if_pos rfl]
  exact congrArg (· >>= loop f) hblock

theorem loop_quote (m : Bytes) : loop (f + 1) (place out gap (34 :: m)) =
    (do let c ← (place out gap (34 :: m)).copy
        let c ← stringLiteral c.mem.length c
        let c ← c.copy
        loop f c) := by
  rw [loop,peek_zero,Outcome.done_bind,if_neg (by decide),if_neg (by decide),if_neg (by decide),if_pos rfl]

theorem loop_string {s : Bytes} (hs : Quoted s) (m : Bytes) : ∃ gap' : Bytes, gap'.length = gap.length ∧
    loop (f + 1) (place out gap (34 :: (s ++ 34 :: m))) = loop f (place (out ++ 34 :: (s ++ [34])) gap' m) := by
  obtain ⟨gap₁,hlen₁,hcopy₁⟩ := copy_cons out gap (s ++ 34 :: m) 34
  obtain ⟨gap₂,hlen₂,hbody⟩ := stringLiteral_place hs (out ++ [34]) gap₁ m
    (f := (place (out ++ [34]) gap₁ (s ++ 34 :: m)).mem.length) (by rw [place_length]; simp; omega)
  obtain ⟨gap₃,hlen₃,hcopy₃⟩ := copy_cons (out ++ [34] ++ s) gap₂ m 34
  refine ⟨gap₃,by rw [hlen₃,hlen₂,hlen₁],?_⟩
  rw [loop_quote,hcopy₁,Outcome.done_bind,hbody,Outcome.done_bind,hcopy₃,Outcome.done_bind]
  simp

theorem loop_byte {b : UInt8} (h₀ : b ≠ 0) (hw : ¬ White b) (h₃₄ : b ≠ 34) {m : Bytes}
    (hm : m ≠ []) (h : b = 47 → m.head? ≠ some 47 ∧ m.head? ≠ some 42) :
    ∃ gap' : Bytes, gap'.length = gap.length ∧
      loop (f + 1) (place out gap (b :: m)) = loop f (place (out ++ [b]) gap' m) := by
  obtain ⟨gap',hlen,hcopy⟩ := copy_cons out gap m b
  refine ⟨gap',hlen,?_⟩
  by_cases h₄₇ : b = 47
  · obtain ⟨d,m,rfl⟩ := List.exists_cons_of_ne_nil hm
    have hd : d ≠ 47 ∧ d ≠ 42 := by simpa using h h₄₇
    subst h₄₇
    rw [loop_slash,if_neg hd.1,if_neg hd.2,hcopy,Outcome.done_bind]
  · rw [loop,peek_zero,Outcome.done_bind,if_neg h₀,if_neg hw,if_neg h₄₇,if_neg h₃₄,hcopy,Outcome.done_bind]

end round

/-- What the loop leaves of a text before its NUL. -/
theorem Minifies.loop {m n : Bytes} (h : Minifies m n) (out gap rest : Bytes) {f : ℕ} (hf : m.length < f) :
    ∃ gap' : Bytes, n.length + gap'.length = m.length + gap.length ∧
      Minify.loop f (place out gap (m ++ 0 :: rest)) = .done (place (out ++ n) gap' (0 :: rest)) := by
  induction h generalizing out gap f with
  | nil =>
    obtain ⟨f,rfl⟩ : ∃ g, f = g + 1 := ⟨f - 1,by omega⟩
    exact ⟨gap,rfl,by rw [List.nil_append,loop_nul,List.append_nil]⟩
  | @white b m n hb _ ih =>
    rw [List.length_cons] at hf
    obtain ⟨f,rfl⟩ : ∃ g, f = g + 1 := ⟨f - 1,by omega⟩
    obtain ⟨gap',hlen,hrun⟩ := ih out (gap ++ [b]) (f := f) (by omega)
    exact ⟨gap',by simp at hlen ⊢; omega,by rw [List.cons_append,loop_white _ _ _ hb,hrun]⟩
  | @line c m n h₀ h₁₀ hm _ ih =>
    simp only [List.length_cons,List.length_append] at hf
    obtain ⟨f,rfl⟩ : ∃ g, f = g + 1 := ⟨f - 1,by omega⟩
    obtain ⟨gap',hlen,hrun⟩ := ih out (gap ++ 47 :: 47 :: c) (f := f) (by omega)
    refine ⟨gap',by simp at hlen ⊢; omega,?_⟩
    have hend : ∃ b m', (b = 0 ∨ b = 10) ∧ m ++ 0 :: rest = b :: m' := by
      cases m with
      | nil => exact ⟨0,rest,Or.inl rfl,rfl⟩
      | cons b m => exact ⟨b,_,Or.inr (hm b rfl),rfl⟩
    obtain ⟨b,m',hb,hm'⟩ := hend
    rw [hm'] at hrun
    rw [List.cons_append,List.cons_append,List.append_assoc,hm',loop_line _ _ _ h₀ h₁₀ hb,hrun]
  | @block c m n hc _ ih =>
    simp only [List.length_cons,List.length_append] at hf
    obtain ⟨f,rfl⟩ : ∃ g, f = g + 1 := ⟨f - 1,by omega⟩
    obtain ⟨gap',hlen,hrun⟩ := ih out (gap ++ 47 :: 42 :: (c ++ [42,47])) (f := f) (by omega)
    refine ⟨gap',by simp at hlen ⊢; omega,?_⟩
    have hstep := loop_block out gap f hc (m ++ 0 :: rest)
    simp only [List.cons_append,List.append_assoc] at hstep hrun ⊢
    rw [hstep]
    exact hrun
  | @short m n _ ih =>
    simp only [List.length_cons] at hf
    obtain ⟨f,rfl⟩ : ∃ g, f = g + 1 := ⟨f - 1,by omega⟩
    obtain ⟨gap',hlen,hrun⟩ := ih out (gap ++ [47,42,47]) (f := f) (by omega)
    refine ⟨gap',by simp at hlen ⊢; omega,?_⟩
    exact (loop_short out gap f (m ++ 0 :: rest)).trans hrun
  | @string s m n hs _ ih =>
    simp only [List.length_cons,List.length_append] at hf
    obtain ⟨f,rfl⟩ : ∃ g, f = g + 1 := ⟨f - 1,by omega⟩
    obtain ⟨gap₁,hlen₁,hstep⟩ := loop_string out gap f hs (m ++ 0 :: rest)
    obtain ⟨gap',hlen,hrun⟩ := ih (out ++ 34 :: (s ++ [34])) gap₁ (f := f) (by omega)
    refine ⟨gap',by simp at hlen ⊢; omega,?_⟩
    simp only [List.cons_append,List.append_assoc,List.nil_append] at hstep hrun ⊢
    rw [hstep,hrun]
  | @byte b m n h₀ hw h₃₄ h _ ih =>
    rw [List.length_cons] at hf
    obtain ⟨f,rfl⟩ : ∃ g, f = g + 1 := ⟨f - 1,by omega⟩
    have hnext : b = 47 → (m ++ 0 :: rest).head? ≠ some 47 ∧ (m ++ 0 :: rest).head? ≠ some 42 := by
      intro hb
      cases m with
      | nil => simp
      | cons d m => exact h hb
    obtain ⟨gap₁,hlen₁,hstep⟩ := loop_byte out gap f h₀ hw h₃₄ (by simp) hnext
    obtain ⟨gap',hlen,hrun⟩ := ih (out ++ [b]) gap₁ (f := f) (by omega)
    refine ⟨gap',by simp at hlen ⊢; omega,?_⟩
    rw [List.cons_append,hstep,hrun,List.append_assoc,List.singleton_append]

/-- In place: what stays, a NUL, stale bytes up to the old NUL and everything behind it. -/
theorem Minifies.run {m n : Bytes} (h : Minifies m n) (rest : Bytes) : ∃ old : Bytes,
    n.length + old.length = m.length ∧ (0 :: old).getLast? = some 0 ∧
      cJSONMinify (m ++ 0 :: rest) = .done (n ++ 0 :: (old ++ rest)) := by
  obtain ⟨gap,hlen,hrun⟩ := h.loop [] [] rest (f := (m ++ 0 :: rest).length + 1) (by simp)
  have hlt : (place ([] ++ n) gap (0 :: rest)).into < (place ([] ++ n) gap (0 :: rest)).mem.length := by
    rw [place_length]
    simp [place]
    omega
  have hmem : (place ([] ++ n) gap (0 :: rest)).mem.set n.length 0 =
      n ++ (gap ++ 0 :: rest).set 0 0 := by
    simp only [place,List.nil_append]
    rw [List.set_append_right _ _ (Nat.le_refl _),Nat.sub_self]
  have hstart : Cursor.start (m ++ 0 :: rest) = place [] [] (m ++ 0 :: rest) := rfl
  rw [cJSONMinify,hstart,hrun,Outcome.done_bind,if_pos hlt]
  cases gap with
  | nil => exact ⟨[],by simpa using hlen,rfl,congrArg Outcome.done (by simp [place])⟩
  | cons b gap =>
    -- the old NUL is still there, behind the new one
    have hlast : (0 :: (gap ++ [0])).getLast? = some 0 := by
      rw [← List.cons_append,List.getLast?_concat]
    refine ⟨gap ++ [0],by simp at hlen ⊢; omega,hlast,congrArg Outcome.done ?_⟩
    have h : (place ([] ++ n) (b :: gap) (0 :: rest)).into = n.length := by simp [place]
    rw [h,hmem]
    simp

theorem peek_outside {c : Cursor} (h : c.mem.length ≤ c.json) (i : ℕ) : c.peek i = .fault := by
  rw [Cursor.peek,List.getElem?_eq_none (by omega)]

theorem loop_outside {c : Cursor} (h : c.mem.length ≤ c.json) (f : ℕ) : loop f c = .fault := by
  cases f with
  | zero => rfl
  | succ f =>
    rw [loop,peek_outside h]
    rfl

theorem stringLiteral_outside {c : Cursor} (h : c.mem.length ≤ c.json) (f : ℕ) : stringLiteral f c = .fault := by
  cases f with
  | zero => rfl
  | succ f =>
    rw [stringLiteral,peek_outside h]
    rfl

theorem place_outside (out gap : Bytes) : (place out gap []).mem.length ≤ (place out gap []).json := by
  simp [place]

theorem blockComment_open {m : Bytes} (h₀ : 0 ∉ m) : (∃ c r, m = c ++ 42 :: 47 :: r ∧ Unended c) ∨
    ∀ out gap f, m.length < f → blockComment f (place out gap (m ++ [0])) =
      .done ((place out (gap ++ m) [0]).advance 2) := by
  induction m with
  | nil =>
    refine Or.inr fun out gap f hf => ?_
    obtain ⟨f,rfl⟩ : ∃ g, f = g + 1 := ⟨f - 1,by omega⟩
    rw [List.nil_append,blockComment,peek_zero,List.append_nil]
    rfl
  | cons b m ih =>
    simp only [List.mem_cons,not_or] at h₀
    by_cases hend : b = 42 ∧ m.head? = some 47
    · obtain ⟨rfl,hm⟩ := hend
      obtain ⟨r,rfl⟩ := List.head?_eq_some_iff.mp hm
      exact Or.inl ⟨[],r,rfl,.nil⟩
    have hgoes : b = 42 → m.head? ≠ some 47 := fun hb hm => hend ⟨hb,hm⟩
    rcases ih h₀.2 with ⟨c,r,rfl,hc⟩ | hopen
    · refine Or.inl ⟨b :: c,r,rfl,.cons (Ne.symm h₀.1) (fun hb => ?_) hc⟩
      cases c with
      | nil => simp
      | cons d c => exact hgoes hb
    · refine Or.inr fun out gap f hf => ?_
      rw [List.length_cons] at hf
      obtain ⟨f,rfl⟩ : ∃ g, f = g + 1 := ⟨f - 1,by omega⟩
      have hnext : b = 42 → (m ++ [0]).head? ≠ some 47 := by
        intro hb
        cases m with
        | nil => simp
        | cons d m => exact hgoes hb
      rw [List.cons_append,blockComment_step (Ne.symm h₀.1) (by simp) hnext,hopen _ _ _ (by omega),
        List.append_assoc,List.singleton_append]

theorem stringLiteral_open (m : Bytes) (h₀ : 0 ∉ m) : (∃ s r, m = s ++ 34 :: r ∧ Quoted s) ∨
    ∀ out gap f, m.length < f → stringLiteral f (place out gap (m ++ [0])) = .fault ∨
      ∃ gap', stringLiteral f (place out gap (m ++ [0])) = .done (place (out ++ m) gap' [0]) := by
  match m with
  | [] =>
    refine Or.inr fun out gap f hf => Or.inr ⟨gap,?_⟩
    obtain ⟨f,rfl⟩ : ∃ g, f = g + 1 := ⟨f - 1,by omega⟩
    rw [List.nil_append,stringLiteral,peek_zero,List.append_nil]
    rfl
  | b :: m =>
    simp only [List.mem_cons,not_or] at h₀
    by_cases h₃₄ : b = 34
    · exact Or.inl ⟨[],m,by rw [h₃₄]; rfl,.nil⟩
    by_cases h₉₂ : b = 92
    · subst h₉₂
      cases m with
      | nil =>
        -- the backslash takes the NUL with it
        refine Or.inr fun out gap f hf => Or.inl ?_
        obtain ⟨f,rfl⟩ : ∃ g, f = g + 1 := ⟨f - 1,by omega⟩
        obtain ⟨gap₁,-,hcopy₁⟩ := copy_cons out gap [0] 92
        obtain ⟨gap₂,-,hcopy₂⟩ := copy_cons (out ++ [92]) gap₁ [] 0
        rw [List.cons_append,List.nil_append,stringLiteral,peek_zero,Outcome.done_bind,if_neg (by decide),
          if_pos rfl,hcopy₁,Outcome.done_bind,hcopy₂,Outcome.done_bind,
          stringLiteral_outside (place_outside _ _)]
      | cons e m =>
        simp only [List.mem_cons,not_or] at h₀
        rcases stringLiteral_open m h₀.2.2 with ⟨s,r,rfl,hs⟩ | hopen
        · exact Or.inl ⟨92 :: e :: s,r,rfl,.escaped (Ne.symm h₀.2.1) hs⟩
        · refine Or.inr fun out gap f hf => ?_
          simp only [List.length_cons] at hf
          obtain ⟨f,rfl⟩ : ∃ g, f = g + 1 := ⟨f - 1,by omega⟩
          obtain ⟨gap₁,-,hcopy₁⟩ := copy_cons out gap (e :: (m ++ [0])) 92
          obtain ⟨gap₂,-,hcopy₂⟩ := copy_cons (out ++ [92]) gap₁ (m ++ [0]) e
          have hrest := hopen (out ++ [92] ++ [e]) gap₂ f (by omega)
          rw [List.append_assoc,List.append_assoc] at hrest
          rw [List.cons_append,List.cons_append,stringLiteral,peek_zero,Outcome.done_bind,if_neg (by decide),
            if_pos rfl,hcopy₁,Outcome.done_bind,hcopy₂,Outcome.done_bind,List.append_assoc]
          exact hrest
    · rcases stringLiteral_open m h₀.2 with ⟨s,r,rfl,hs⟩ | hopen
      · exact Or.inl ⟨b :: s,r,rfl,.plain (Ne.symm h₀.1) h₃₄ h₉₂ hs⟩
      · refine Or.inr fun out gap f hf => ?_
        rw [List.length_cons] at hf
        obtain ⟨f,rfl⟩ : ∃ g, f = g + 1 := ⟨f - 1,by omega⟩
        obtain ⟨gap₁,-,hcopy⟩ := copy_cons out gap (m ++ [0]) b
        have hrest := hopen (out ++ [b]) gap₁ f (by omega)
        rw [List.append_assoc] at hrest
        rw [List.cons_append,stringLiteral,peek_zero,Outcome.done_bind,
          if_neg (by rintro (h | h); exacts [h₀.1 h.symm,h₃₄ h]),if_neg h₉₂,hcopy,Outcome.done_bind]
        exact hrest

theorem loop_unclosed {m : Bytes} (hopen : ∀ out gap f, m.length < f →
    stringLiteral f (place out gap (m ++ [0])) = .fault ∨
      ∃ gap', stringLiteral f (place out gap (m ++ [0])) = .done (place (out ++ m) gap' [0]))
    (out gap : Bytes) (f : ℕ) : loop (f + 1) (place out gap (34 :: (m ++ [0]))) = .fault := by
  obtain ⟨gap₁,-,hcopy₁⟩ := copy_cons out gap (m ++ [0]) 34
  rw [loop_quote,hcopy₁,Outcome.done_bind]
  have hlen : m.length < (place (out ++ [34]) gap₁ (m ++ [0])).mem.length := by
    rw [place_length]
    simp
    omega
  rcases hopen (out ++ [34]) gap₁ _ hlen with h | ⟨gap₂,h⟩
  · rw [h]
    rfl
  · obtain ⟨gap₃,-,hcopy₃⟩ := copy_cons (out ++ [34] ++ m) gap₂ [] 0
    rw [h,Outcome.done_bind,hcopy₃,Outcome.done_bind,loop_outside (place_outside _ _)]

theorem loop_uncommented {m : Bytes} (hopen : ∀ out gap f, (42 :: m).length < f →
    blockComment f (place out gap (42 :: m ++ [0])) = .done ((place out (gap ++ 42 :: m) [0]).advance 2))
    (out gap : Bytes) (f : ℕ) : loop (f + 1) (place out gap (47 :: 42 :: (m ++ [0]))) = .fault := by
  have hlen : (place out gap (47 :: 42 :: (m ++ [0]))).mem.length =
      out.length + gap.length + (42 :: (m ++ [0])).length + 1 := by
    rw [place_length,List.length_cons,← Nat.add_assoc]
  have hrun : blockComment (place out gap (47 :: 42 :: (m ++ [0]))).mem.length
      (place out gap (47 :: 42 :: (m ++ [0]))) =
        .done ((place out (gap ++ [47] ++ 42 :: m) [0]).advance 2) := by
    rw [hlen,blockComment_step (by decide) (by simp) (by simp)]
    exact hopen out (gap ++ [47]) _ (by simp; omega)
  rw [loop_slash,if_neg (by decide),if_pos rfl,hrun,Outcome.done_bind,
    loop_outside (by simp [place,Cursor.advance]; omega)]

theorem line_split {m : Bytes} (h₀ : 0 ∉ m) :
    ∃ c r, m = c ++ r ∧ 0 ∉ c ∧ 10 ∉ c ∧ ∀ b ∈ r.head?, b = 10 := by
  have hsplit : m.takeWhile (· != 10) ++ m.dropWhile (· != 10) = m := List.takeWhile_append_dropWhile
  refine ⟨_,_,hsplit.symm,fun hc => h₀ (hsplit ▸ List.mem_append_left _ hc),fun hc => ?_,fun b hb => ?_⟩
  · simpa using List.mem_takeWhile_imp hc
  · have h := List.head?_dropWhile_not (· != 10) m
    rw [hb] at h
    simpa using h

/-- A run that stays in the block has closed every string and comment. -/
theorem minifies_of_done (f : ℕ) {out gap m : Bytes} {c : Cursor} (h₀ : 0 ∉ m)
    (h : loop f (place out gap (m ++ [0])) = .done c) : ∃ n, Minifies m n := by
  induction f generalizing out gap m with
  | zero => cases h
  | succ f ih =>
    cases m with
    | nil => exact ⟨[],.nil⟩
    | cons b m =>
      have hb₀ : b ≠ 0 := fun hb => h₀ (by simp [hb])
      have hm₀ : 0 ∉ m := fun hm => h₀ (List.mem_cons_of_mem b hm)
      rw [List.cons_append] at h
      by_cases hw : White b
      · rw [loop_white _ _ _ hw] at h
        obtain ⟨n,hn⟩ := ih hm₀ h
        exact ⟨n,.white hw hn⟩
      by_cases h₃₄ : b = 34
      · subst h₃₄
        rcases stringLiteral_open m hm₀ with ⟨s,r,rfl,hs⟩ | hopen
        · obtain ⟨gap',-,hstep⟩ := loop_string out gap f hs (r ++ [0])
          rw [List.append_assoc,List.cons_append,hstep] at h
          obtain ⟨n,hn⟩ := ih (fun hr => hm₀ (by simp [hr])) h
          exact ⟨_,.string hs hn⟩
        · rw [loop_unclosed hopen] at h
          cases h
      by_cases hline : b = 47 ∧ m.head? = some 47
      · obtain ⟨rfl,hd⟩ := hline
        obtain ⟨m,rfl⟩ := List.head?_eq_some_iff.mp hd
        obtain ⟨c,r,rfl,hc₀,hc₁₀,hr⟩ := line_split (fun hm => hm₀ (List.mem_cons_of_mem _ hm))
        obtain ⟨d,r',hd,hr'⟩ : ∃ d r', (d = 0 ∨ d = 10) ∧ r ++ [0] = d :: r' := by
          cases r with
          | nil => exact ⟨0,[],Or.inl rfl,rfl⟩
          | cons d r => exact ⟨d,_,Or.inr (hr d rfl),rfl⟩
        rw [List.cons_append,List.append_assoc,hr',loop_line _ _ _ hc₀ hc₁₀ hd,← hr'] at h
        obtain ⟨n,hn⟩ := ih (fun hr => hm₀ (by simp [hr])) h
        exact ⟨n,.line hc₀ hc₁₀ hr hn⟩
      by_cases hblock : b = 47 ∧ m.head? = some 42
      · obtain ⟨rfl,hd⟩ := hblock
        obtain ⟨m,rfl⟩ := List.head?_eq_some_iff.mp hd
        rcases blockComment_open hm₀ with ⟨c,r,hc,hun⟩ | hopen
        · cases c with
          | nil =>
            obtain rfl : m = 47 :: r := List.tail_eq_of_cons_eq hc
            rw [List.cons_append,List.cons_append,loop_short] at h
            obtain ⟨n,hn⟩ := ih (fun hr => hm₀ (by simp [hr])) h
            exact ⟨n,.short hn⟩
          | cons d c =>
            obtain ⟨rfl,rfl⟩ : d = 42 ∧ m = c ++ 42 :: 47 :: r := by simpa [eq_comm] using hc
            rw [List.cons_append,List.append_assoc,List.cons_append,List.cons_append,
              loop_block _ _ _ hun] at h
            obtain ⟨n,hn⟩ := ih (fun hr => hm₀ (by simp [hr])) h
            exact ⟨n,.block hun hn⟩
        · rw [List.cons_append,loop_uncommented hopen] at h
          cases h
      · have hplain : b = 47 → m.head? ≠ some 47 ∧ m.head? ≠ some 42 := fun hb =>
          ⟨fun hm => hline ⟨hb,hm⟩,fun hm => hblock ⟨hb,hm⟩⟩
        have hnext : b = 47 → (m ++ [0]).head? ≠ some 47 ∧ (m ++ [0]).head? ≠ some 42 := by
          intro hb
          cases m with
          | nil => simp
          | cons d m => exact hplain hb
        obtain ⟨gap',-,hstep⟩ := loop_byte out gap f hb₀ hw h₃₄ (by simp) hnext
        rw [hstep] at h
        obtain ⟨n,hn⟩ := ih hm₀ h
        exact ⟨_,.byte hb₀ hw h₃₄ hplain hn⟩

/-- A text whose strings and comments are all closed is minified in its block, and any other
takes `cJSON_Minify` out of a block that ends with the text. From wherever the loop starts, no
byte is overwritten before it is read. -/
theorem minify_in_place (s : CString) :
    ((∃ m, cJSONMinify (s.bytes ++ [0]) = .done m) ↔ ∃ n, Minifies s.bytes n) ∧
    (∀ n rest, Minifies s.bytes n → ∃ old : Bytes, n.length + old.length = s.bytes.length ∧
      (0 :: old).getLast? = some 0 ∧
      cJSONMinify (s.bytes ++ 0 :: rest) = .done (n ++ 0 :: (old ++ rest))) ∧
    ∀ (c d : Cursor) (f : ℕ), loop f c = .done d →
      c.json ≤ d.json ∧ d.into ≤ d.json ∧ d.mem.drop d.json = c.mem.drop d.json := by
  have hpost : Outcome.Post (fun _ => ∃ n, Minifies s.bytes n) (cJSONMinify (s.bytes ++ [0])) :=
    Outcome.Post.bind (P := fun _ => ∃ n, Minifies s.bytes n)
      (fun c hc => @minifies_of_done _ [] [] s.bytes c s.nulFree hc) fun _ h _ _ => h
  refine ⟨⟨?_,?_⟩,fun n rest h => h.run rest,fun c d f h => ?_⟩
  · rintro ⟨m,hm⟩
    exact hpost m hm
  · rintro ⟨n,h⟩
    obtain ⟨old,-,-,hrun⟩ := h.run []
    exact ⟨_,hrun⟩
  · obtain ⟨hread,hunread⟩ := loop_onward f c d h
    exact ⟨hread,d.behind,hunread⟩

example : cJSONMinify (utf8 "[ 1, /* \" */ \"a b\" ] // end" ++ [0]) =
    .done (utf8 "[1,\"a b\"]" ++ [0] ++ utf8 "*/ \"a b\" ] // end" ++ [0]) := by decide

end Minify
end WddProc
