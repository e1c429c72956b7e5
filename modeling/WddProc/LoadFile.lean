import WddProc.CJsonBlock

/-!
# Reading the configuration file

`load_json_file` reads in chunks into a block from `malloc` and parses the block,
which holds the bytes of the file and then whatever was there before.
-/

namespace WddProc
namespace LoadFile

open Parse

/-- An open stream: what `fread` of at most `n` bytes returns, and the end-of-file flag. -/
structure File (σ : Type) where
  fread : σ → ℕ → Bytes × σ
  fread_length : ∀ s n, (fread s n).1.length ≤ n
  feof : σ → Bool

def FILE_BUF_SIZE : ℕ := 1024 * 1024 * 20

variable {σ : Type} (F : File σ) (p : Platform)

/-- The size of the next chunk when `n` bytes are stored. -/
def request (n : ℕ) : ℕ := min (1024 * 4) (FILE_BUF_SIZE - n)

/-- One round of the read loop on the stream and the bytes stored so far; `none` ends it. -/
def readRound : σ × Bytes → Option (σ × Bytes)
  | (s,buf) =>
    if !F.feof s ∧ buf.length < FILE_BUF_SIZE then
      let r := F.fread s (request buf.length)
      some (r.2,buf ++ r.1)
    else none

/-- The loop after `n` rounds, if it still runs. -/
def rounds : ℕ → σ × Bytes → Option (σ × Bytes)
  | 0, t => some t
  | n+1, t => (readRound F t).bind (rounds n)

/-- The loop ends after some rounds with these bytes stored. -/
def Ends (t t' : σ × Bytes) : Prop := ∃ n, rounds F n t = some t' ∧ readRound F t' = none

/-- `cJSON_Parse` on the block, and the warning that prints it with `%s` when that fails. -/
def parseBlock (m : Bytes) : Outcome CJson :=
  match cJSONParse p m with
  | .done t => .done t
  | .null => if 0 ∈ m then .null else .fault
  | .fault => .fault

/-- What `load_json_file` returns once its loop has ended, for a block that held `mem`. -/
def afterLoop (mem : Bytes) : σ × Bytes → Outcome CJson
  | (s,buf) => if !F.feof s then .null else parseBlock p (buf ++ mem.drop buf.length)

/-- `load_json_file` returns; `none` is a file that cannot be opened. -/
inductive Returns (mem : Bytes) : Option σ → Outcome CJson → Prop
  | closed : Returns mem none .null
  | read {s : σ} {t : σ × Bytes} : Ends F (s,[]) t → Returns mem (some s) (afterLoop F p mem t)

theorem rounds_add (n k : ℕ) (t : σ × Bytes) :
    rounds F (n + k) t = (rounds F n t).bind (rounds F k) := by
  induction n generalizing t with
  | zero => simp [rounds]
  | succ n ih =>
    rw [Nat.succ_add]
    cases h : readRound F t with
    | none => simp [rounds,h]
    | some t' => simp [rounds,h,ih]

theorem rounds_succ (n : ℕ) (t : σ × Bytes) :
    rounds F (n + 1) t = (rounds F n t).bind (readRound F) := by
  rw [rounds_add]
  refine congrArg _ (funext fun t' => ?_)
  simp only [rounds]
  cases readRound F t' <;> rfl

theorem ends_unique {t t₁ t₂ : σ × Bytes} (h₁ : Ends F t t₁) (h₂ : Ends F t t₂) : t₁ = t₂ := by
  obtain ⟨n,hn,hn'⟩ := h₁
  obtain ⟨k,hk,hk'⟩ := h₂
  rcases Nat.lt_trichotomy n k with hlt | rfl | hlt
  · obtain ⟨d,rfl⟩ : ∃ d, k = n + (d + 1) := ⟨k - n - 1,by omega⟩
    rw [rounds_add,hn,Option.bind_some,rounds,hn'] at hk
    cases hk
  · exact Option.some.inj (hn.symm.trans hk)
  · obtain ⟨d,rfl⟩ : ∃ d, n = k + (d + 1) := ⟨n - k - 1,by omega⟩
    rw [rounds_add,hk,Option.bind_some,rounds,hk'] at hn
    cases hn

theorem Ends.of_rounds {n : ℕ} {t t₁ t₂ : σ × Bytes} (h : rounds F n t = some t₁)
    (he : Ends F t₁ t₂) : Ends F t t₂ := by
  obtain ⟨k,hk,hk'⟩ := he
  exact ⟨n + k,by rw [rounds_add,h,Option.bind_some,hk],hk'⟩

/-- `load_json_file` returns at most one result. -/
theorem returns_unique {mem : Bytes} {fp : Option σ} {o₁ o₂ : Outcome CJson}
    (h₁ : Returns F p mem fp o₁) (h₂ : Returns F p mem fp o₂) : o₁ = o₂ := by
  cases h₁ with
  | closed =>
    cases h₂
    rfl
  | read h₁ =>
    cases h₂ with
    | read h₂ => rw [ends_unique F h₁ h₂]

def after (r : ℕ) : ℕ → σ → σ
  | 0, s => s
  | k+1, s => after r k (F.fread s r).2

/-- Every request of `r` bytes, however often repeated, gives no byte and no end of file. -/
def Idle (r : ℕ) (s : σ) : Prop :=
  ∀ k, F.feof (after F r k s) = false ∧ (F.fread (after F r k s) r).1 = []

/-- The loop comes to a stream that gives nothing more while there is room in the block. -/
def Stalls (t : σ × Bytes) : Prop :=
  ∃ n t', rounds F n t = some t' ∧ t'.2.length < FILE_BUF_SIZE ∧ Idle F (request t'.2.length) t'.1

theorem after_succ (r k : ℕ) (s : σ) : after F r (k + 1) s = (F.fread (after F r k s) r).2 := by
  induction k generalizing s with
  | zero => rfl
  | succ k ih => exact ih _

theorem readRound_eq {s : σ} {buf : Bytes} (h : F.feof s = false) (hlt : buf.length < FILE_BUF_SIZE) :
    readRound F (s,buf) = some ((F.fread s (request buf.length)).2,
      buf ++ (F.fread s (request buf.length)).1) := by
  simp [readRound,h,hlt]

theorem rounds_idle {s : σ} {buf : Bytes} (hlt : buf.length < FILE_BUF_SIZE) {n : ℕ}
    (h : ∀ k < n, F.feof (after F (request buf.length) k s) = false ∧
      (F.fread (after F (request buf.length) k s) (request buf.length)).1 = []) :
    rounds F n (s,buf) = some (after F (request buf.length) n s,buf) := by
  induction n with
  | zero => rfl
  | succ n ih =>
    have hn := h n (Nat.lt_succ_self n)
    rw [rounds_succ,ih fun k hk => h k (Nat.lt_succ_of_lt hk),Option.bind_some,
      readRound_eq F hn.1 hlt,hn.2,List.append_nil,after_succ]

theorem not_ends_of_stalls {t : σ × Bytes} (h : Stalls F t) : ¬ ∃ t', Ends F t t' := by
  rintro ⟨t₂,he⟩
  obtain ⟨n,⟨s,buf⟩,hn,hlt,hidle⟩ := h
  obtain ⟨k,hk,hk'⟩ := he
  have hrun := rounds_idle F hlt (n := k + 1) fun i _ => hidle i
  have hall : rounds F (n + (k + 1)) t = some (after F (request buf.length) (k + 1) s,buf) := by
    rw [rounds_add,hn,Option.bind_some,hrun]
  rw [show n + (k + 1) = k + (n + 1) by omega,rounds_add,hk,Option.bind_some,rounds,hk'] at hall
  cases hall

/-- Each request that gives something uses up room, so a loop that does not end stalls. -/
theorem stalls_of_not_ends {d : ℕ} {s : σ} {buf : Bytes} (hd : FILE_BUF_SIZE - buf.length ≤ d)
    (h : ¬ ∃ t', Ends F (s,buf) t') : Stalls F (s,buf) := by
  induction d generalizing s buf with
  | zero =>
    refine absurd ⟨(s,buf),0,rfl,?_⟩ h
    have hge : ¬ buf.length < FILE_BUF_SIZE := by omega
    simp [readRound,hge]
  | succ d ih =>
    have hlt : buf.length < FILE_BUF_SIZE := by
      by_contra hge
      exact h ⟨(s,buf),0,rfl,by simp [readRound,hge]⟩
    by_cases hidle : Idle F (request buf.length) s
    · exact ⟨0,(s,buf),rfl,hlt,hidle⟩
    · -- the first request that gives something
      have hex : ∃ k, ¬ (F.feof (after F (request buf.length) k s) = false ∧
          (F.fread (after F (request buf.length) k s) (request buf.length)).1 = []) := by
        simpa only [Idle,not_forall] using hidle
      classical
      obtain ⟨k,hk,hmin⟩ : ∃ k, ¬ (F.feof (after F (request buf.length) k s) = false ∧
          (F.fread (after F (request buf.length) k s) (request buf.length)).1 = []) ∧
          ∀ i < k, F.feof (after F (request buf.length) i s) = false ∧
            (F.fread (after F (request buf.length) i s) (request buf.length)).1 = [] :=
        ⟨Nat.find hex,Nat.find_spec hex,fun i hi => not_not.mp (Nat.find_min hex hi)⟩
      have hrun := rounds_idle F hlt hmin
      set s' := after F (request buf.length) k s
      have heof : F.feof s' = false := by
        by_contra he
        exact h ⟨(s',buf),k,hrun,by simp [readRound,he]⟩
      have hne : (F.fread s' (request buf.length)).1 ≠ [] := fun he => hk ⟨heof,he⟩
      have hpos := List.length_pos_iff.mpr hne
      have hnext : rounds F (k + 1) (s,buf) = some ((F.fread s' (request buf.length)).2,
          buf ++ (F.fread s' (request buf.length)).1) := by
        rw [rounds_succ,hrun,Option.bind_some,readRound_eq F heof hlt]
      obtain ⟨n,t',hn,hlt',hidle'⟩ := @ih (F.fread s' (request buf.length)).2
        (buf ++ (F.fread s' (request buf.length)).1)
        (by rw [List.length_append]; omega)
        (fun ⟨t',he⟩ => h ⟨t',Ends.of_rounds F hnext he⟩)
      exact ⟨k + 1 + n,t',by rw [rounds_add,hnext,Option.bind_some,hn],hlt',hidle'⟩

/-- The read loop ends exactly when the stream does not stall it. -/
theorem ends_iff (t : σ × Bytes) : (∃ t', Ends F t t') ↔ ¬ Stalls F t := by
  constructor
  · exact fun h hs => not_ends_of_stalls F hs h
  · intro h
    by_contra hno
    exact h (stalls_of_not_ends F (le_refl _) hno)

/-- The parser and the warning stay inside a block: it starts with a complete value, or there
is a syntax error in it and a NUL. -/
def Decided (m : Bytes) : Prop := (∃ j, Document m j) ∨ 0 ∈ m ∧ cJSONParse p m = .null

theorem parseBlock_ne_fault_iff (m : Bytes) : parseBlock p m ≠ .fault ↔ Decided p m := by
  unfold parseBlock Decided
  cases h : cJSONParse p m with
  | done t =>
    obtain ⟨j,hj,-⟩ := (cJSONParse_iff p).mp h
    simp only [ne_eq,reduceCtorEq,not_false_eq_true,and_false,or_false,true_iff]
    exact ⟨j,hj⟩
  | null =>
    have hno : ¬ ∃ j, Document m j := by
      rintro ⟨j,hj⟩
      rw [hj.parse p] at h
      cases h
    by_cases h0 : 0 ∈ m <;> simp [hno,h0]
  | fault =>
    have hno : ¬ ∃ j, Document m j := by
      rintro ⟨j,hj⟩
      rw [hj.parse p] at h
      cases h
    simp [hno]

theorem parseBlock_append {m : Bytes} (h : Decided p m) (x : Bytes) :
    parseBlock p (m ++ x) = cJSONParse p m := by
  have hf : cJSONParse p m ≠ .fault := by
    rcases h with ⟨j,hj⟩ | ⟨-,hn⟩
    · simp [hj.parse p]
    · simp [hn]
  rw [parseBlock,cJSONParse_append p hf x]
  rcases h with ⟨j,hj⟩ | ⟨h0,hn⟩
  · rw [hj.parse p]
  · rw [hn]
    simp [h0]

/-- `load_json_file` returns a tree or NULL exactly when the stream never stalls the loop and,
where the loop ends at the end of the file, the block decides the parse. -/
theorem returns_iff (s : σ) (mem : Bytes) :
    (∃ o, Returns F p mem (some s) o ∧ o ≠ .fault) ↔
      ¬ Stalls F (s,[]) ∧ ∀ t, Ends F (s,[]) t → F.feof t.1 = true →
        Decided p (t.2 ++ mem.drop t.2.length) := by
  rw [← ends_iff]
  have hafter (t : σ × Bytes) : afterLoop F p mem t ≠ .fault ↔
      (F.feof t.1 = true → Decided p (t.2 ++ mem.drop t.2.length)) := by
    rw [← parseBlock_ne_fault_iff]
    cases h : F.feof t.1 <;> simp [afterLoop,h]
  constructor
  · rintro ⟨o,hr,ho⟩
    cases hr with
    | @read _ t he =>
      refine ⟨⟨t,he⟩,fun t' he' => ?_⟩
      rw [ends_unique F he' he]
      exact (hafter t).mp ho
  · rintro ⟨⟨t,he⟩,hall⟩
    exact ⟨_,Returns.read he,(hafter t).mpr (hall t he)⟩

/-- A stream on a directory: every read fails. -/
def directory : File Unit where
  fread s _ := ([],s)
  fread_length _ _ := Nat.zero_le _
  feof _ := false

theorem directory_stalls : Stalls directory ((),[]) :=
  ⟨0,((),[]),rfl,by decide,fun _ => ⟨rfl,rfl⟩⟩

theorem directory_never_returns (mem : Bytes) : ¬ ∃ o, Returns directory p mem (some ()) o := by
  rintro ⟨o,hr⟩
  cases hr with
  | read he => exact not_ends_of_stalls directory directory_stalls ⟨_,he⟩

theorem loop_need_not_end :
    ¬ ∀ (p : Platform) (σ : Type) (F : File σ) (s : σ) (mem : Bytes),
      ∃ o, Returns F p mem (some s) o ∧ o ≠ .fault := by
  intro hall
  obtain ⟨o,hr,-⟩ := hall .sample Unit directory () []
  exact directory_never_returns .sample [] ⟨o,hr⟩

/-- A regular file: what is left of it, and the flag that a read came up short sets. -/
def regular : File (Bytes × Bool) where
  fread s n := (s.1.take n,(s.1.drop n,s.2 || decide (s.1.length < n)))
  fread_length s n := List.length_take_le n s.1
  feof s := s.2

theorem request_le (n : ℕ) : request n ≤ FILE_BUF_SIZE - n := Nat.min_le_right _ _

theorem request_pos {n : ℕ} (h : n < FILE_BUF_SIZE) : 0 < request n :=
  Nat.lt_min.mpr ⟨by decide,by omega⟩

theorem regular_round (rest : Bytes) {buf : Bytes} (h : buf.length < FILE_BUF_SIZE) :
    rounds regular 1 ((rest,false),buf) = some ((rest.drop (request buf.length),
      decide (rest.length < request buf.length)),buf ++ rest.take (request buf.length)) := by
  rw [rounds,readRound_eq regular rfl h]
  rfl

theorem ends_small (rest buf : Bytes) (h : buf.length + rest.length < FILE_BUF_SIZE) :
    ∃ left, Ends regular ((rest,false),buf) ((left,true),buf ++ rest) := by
  induction hn : rest.length using Nat.strong_induction_on generalizing rest buf with
  | _ n ih =>
    have hlt : buf.length < FILE_BUF_SIZE := by omega
    have hround := regular_round rest hlt
    by_cases hshort : rest.length < request buf.length
    · have htake : rest.take (request buf.length) = rest := List.take_of_length_le hshort.le
      rw [htake,decide_eq_true hshort] at hround
      exact ⟨_,1,hround,by simp [readRound,regular]⟩
    · have hpos := request_pos hlt
      obtain ⟨left,he⟩ := ih (rest.length - request buf.length) (by omega)
        (rest.drop (request buf.length)) (buf ++ rest.take (request buf.length))
        (by simp only [List.length_append,List.length_take,List.length_drop]; omega)
        (by rw [List.length_drop])
      rw [List.append_assoc,List.take_append_drop] at he
      rw [decide_eq_false hshort] at hround
      exact ⟨left,Ends.of_rounds regular hround he⟩

theorem ends_large (rest buf : Bytes) (hb : buf.length ≤ FILE_BUF_SIZE)
    (h : FILE_BUF_SIZE ≤ buf.length + rest.length) :
    ∃ left buf', Ends regular ((rest,false),buf) ((left,false),buf') := by
  induction hn : rest.length using Nat.strong_induction_on generalizing rest buf with
  | _ n ih =>
    by_cases hlt : buf.length < FILE_BUF_SIZE
    · have hround := regular_round rest hlt
      have hpos := request_pos hlt
      have hle := request_le buf.length
      have hshort : ¬ rest.length < request buf.length := by omega
      obtain ⟨left,buf',he⟩ := ih (rest.length - request buf.length) (by omega)
        (rest.drop (request buf.length)) (buf ++ rest.take (request buf.length))
        (by simp only [List.length_append,List.length_take]; omega)
        (by simp only [List.length_append,List.length_take,List.length_drop]; omega)
        (by rw [List.length_drop])
      rw [decide_eq_false hshort] at hround
      exact ⟨left,buf',Ends.of_rounds regular hround he⟩
    · exact ⟨rest,buf,0,rfl,by simp [readRound,hlt]⟩

def Loads (content mem : Bytes) (o : Outcome CJson) : Prop :=
  Returns regular p mem (some (content,false)) o

theorem loads_small {content : Bytes} (h : content.length < FILE_BUF_SIZE) (mem : Bytes)
    (o : Outcome CJson) :
    Loads p content mem o ↔ o = parseBlock p (content ++ mem.drop content.length) := by
  obtain ⟨left,he⟩ := ends_small content [] (by simpa using h)
  have hret : Loads p content mem (parseBlock p (content ++ mem.drop content.length)) :=
    Returns.read he
  constructor
  · exact fun ho => returns_unique regular p ho hret
  · rintro rfl
    exact hret

theorem loads_large {content : Bytes} (h : FILE_BUF_SIZE ≤ content.length) (mem : Bytes) :
    Loads p content mem .null := by
  obtain ⟨left,buf,he⟩ := ends_large content [] (Nat.zero_le _) (by simpa using h)
  exact Returns.read he

/-- Loading depends on nothing but the file: whatever the block held before, the result is that
of the file and a NUL, and a block that ends with the file is not left. A file that does not fit
is rejected. -/
structure OnlyTheFile (content : Bytes) : Prop where
  result : content.length < FILE_BUF_SIZE → ∀ mem : Bytes, mem.length = FILE_BUF_SIZE →
    Loads p content mem (cJSONParse p (content ++ [0]))
  inside : content.length < FILE_BUF_SIZE → ∃ o, Loads p content [] o ∧ o ≠ .fault
  rejected : FILE_BUF_SIZE ≤ content.length → ∀ mem : Bytes, Loads p content mem .null

/-- Loading depends on the file alone exactly for the files that do not fit, that start with a
complete value, or that have a NUL and a syntax error. -/
theorem onlyTheFile_iff (content : Bytes) :
    OnlyTheFile p content ↔ FILE_BUF_SIZE ≤ content.length ∨ Decided p content := by
  rcases Nat.lt_or_ge content.length FILE_BUF_SIZE with hlt | hge
  · have hng : ¬ FILE_BUF_SIZE ≤ content.length := by omega
    constructor
    · intro h
      obtain ⟨o,ho,hf⟩ := h.inside hlt
      rw [loads_small p hlt,List.drop_nil,List.append_nil] at ho
      exact Or.inr ((parseBlock_ne_fault_iff p content).mp (ho ▸ hf))
    · intro h
      have hd := h.resolve_left hng
      have hf : cJSONParse p content ≠ .fault := by
        rcases hd with ⟨j,hj⟩ | ⟨-,hn⟩
        · simp [hj.parse p]
        · simp [hn]
      refine ⟨fun _ mem _ => ?_,fun _ => ?_,fun hge => absurd hge hng⟩
      · rw [loads_small p hlt,parseBlock_append p hd,cJSONParse_append p hf]
      · refine ⟨_,(loads_small p hlt [] _).mpr rfl,?_⟩
        rw [List.drop_nil,List.append_nil]
        exact (parseBlock_ne_fault_iff p content).mpr hd
  · have hnl : ¬ content.length < FILE_BUF_SIZE := by omega
    exact ⟨fun _ => Or.inl hge,fun _ => ⟨fun hlt => absurd hlt hnl,fun hlt => absurd hlt hnl,
      fun hge mem => loads_large p hge mem⟩⟩

/-- A file that ends in `[1` loads as an array when the block held a `]` behind it, and is
rejected when it held a NUL. -/
theorem stale_bracket_closes : ¬ ∀ (p : Platform) (content : Bytes), OnlyTheFile p content := by
  intro hall
  let mem : Bytes := [0,0,93] ++ List.replicate (FILE_BUF_SIZE - 3) 0
  have hmem : mem.length = FILE_BUF_SIZE := by
    rw [List.length_append,List.length_replicate]
    decide
  have hload := (hall .sample [91,49]).result (by decide) mem hmem
  rw [loads_small .sample (by decide)] at hload
  obtain ⟨t,harray⟩ : ∃ t, cJSONParse .sample [91,49,93] = .done t := ⟨_,rfl⟩
  have hdec : Decided .sample [91,49,93] := by
    obtain ⟨j,hj,-⟩ := (cJSONParse_iff .sample).mp harray
    exact Or.inl ⟨j,hj⟩
  have hstale := parseBlock_append .sample hdec (List.replicate (FILE_BUF_SIZE - 3) 0)
  rw [harray] at hstale
  have hfile : cJSONParse .sample ([91,49] ++ [0]) = .null := rfl
  rw [hfile] at hload
  exact absurd (hload.trans hstale) (by simp)

end LoadFile
end WddProc
