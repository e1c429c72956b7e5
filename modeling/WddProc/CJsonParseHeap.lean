import WddProc.CJsonBlock
import WddProc.CJsonPrint

/-!
# Parsing into items on the heap

The parser of `cJSON.c` fills an item that its caller has made. Beside the parser on trees it
ends with the same tree, or with NULL and `ep`; what it has built by then still hangs on the
item, so that deleting the item leaves nothing behind.
-/

namespace WddProc

namespace Parse

variable (p : Platform)

/-- `cJSON_ParseWithOpts` without a heap: the tree and `*return_parse_end`. -/
def parseWithOpts (requireNullTerminated : Bool) (value : Bytes) : Outcome (CJson × Bytes) := do
  let r ← parseValue p (3 * value.length + 3) (← skip value)
  if requireNullTerminated then
    match ← skip r.2 with
    | [] => .fault
    | b :: m => if b ≠ 0 then .null else .done (r.1,b :: m)
  else .done r

end Parse

namespace CJsonHeap

open OwnedHeap

section model

/-- A pointer into the text, or NULL with what `ep` says then. -/
abbrev TextPtr := Except (Option Bytes) Bytes

/-- What a function found that only reads the text. -/
def reads {α : Type} : Outcome α → Prog α
  | .done a => pure a
  | _ => Prog.fault

/-- `if (!value) return 0;` for the pointer that a call returned. -/
def orReturn (c : Prog TextPtr) (k : Bytes → Prog TextPtr) : Prog TextPtr := do
  match ← c with
  | .error ep => pure (.error ep)
  | .ok value => k value

def skipped (c : Bytes → Prog TextPtr) (value : Bytes) : Prog TextPtr := do
  let m ← reads (Parse.skip value)
  orReturn (c m) fun m => do
    let m ← reads (Parse.skip m)
    pure (.ok m)

variable (al : Allocator Addr Block) (fuel : ℕ) (p : Platform)

def parseString (item : Addr) : Bytes → Prog TextPtr
  | [] => Prog.fault
  | b :: m =>
    if b ≠ 34 then pure (.error (some (b :: m)))
    else do
      let len ← reads (Parse.scanLen m)
      let _ ← intOf (len + 1)
      match ← Prog.malloc al (.text (CString.ofMem [])) with
      | none => pure (.error none)
      | some out => do
        let r ← reads (Parse.unescape (m.length + 1) m)
        if len < r.1.length then Prog.fault
        else match r.2 with
          | [] => Prog.fault
          | q :: m => do
            Prog.store out (.text (CString.ofMem r.1))
            modifyNode (some item) fun n => { n with valuestring := some out, type := .string }
            pure (.ok (if q = 34 then m else q :: m))

def parseNumber (item : Addr) (num : Bytes) : Prog TextPtr := do
  match ← reads (Parse.parseNumber p num) with
  | (.mk _ _ vi vd _ _,m) => do
    modifyNode (some item) fun n => { n with valuedouble := vd, valueint := vi, type := .number }
    pure (.ok m)

/-- `item->child = child = cJSON_New_Item();`, and what goes on with the child if there is one. -/
def withChild (item : Addr) (k : Addr → Prog TextPtr) : Prog TextPtr := do
  let child ← newItem al
  modifyNode (some item) fun n => { n with child := child }
  match child with
  | none => pure (.error none)
  | some child => k child

/-- The new item that is linked behind `child`, and what goes on with it if there is one. -/
def withNext (child : Addr) (k : Addr → Prog TextPtr) : Prog TextPtr := do
  match ← newItem al with
  | none => pure (.error none)
  | some newitem => do
    modifyNode (some child) fun n => { n with next := some newitem }
    modifyNode (some newitem) fun n => { n with prev := some child }
    k newitem

mutual

def parseValue : ℕ → Addr → Bytes → Prog TextPtr
  | 0, _, _ => Prog.fault
  | f+1, item, value => do
    if ← reads (Parse.startsWith (utf8 "null") value) then do
      modifyNode (some item) fun n => { n with type := .null }
      pure (.ok (value.drop 4))
    else if ← reads (Parse.startsWith (utf8 "false") value) then do
      modifyNode (some item) fun n => { n with type := .false }
      pure (.ok (value.drop 5))
    else if ← reads (Parse.startsWith (utf8 "true") value) then do
      modifyNode (some item) fun n => { n with type := .true, valueint := 1 }
      pure (.ok (value.drop 4))
    else match value with
      | [] => Prog.fault
      | b :: m =>
        if b = 34 then parseString al item (b :: m)
        else if b = 45 ∨ isDigit b then parseNumber p item (b :: m)
        else if b = 91 then parseArray f item (b :: m)
        else if b = 123 then parseObject f item (b :: m)
        else pure (.error (some (b :: m)))

def parseArray : ℕ → Addr → Bytes → Prog TextPtr
  | 0, _, _ => Prog.fault
  | _+1, _, [] => Prog.fault
  | f+1, item, b :: m =>
    if b ≠ 91 then pure (.error (some (b :: m)))
    else do
      modifyNode (some item) fun n => { n with type := .array }
      match ← reads (Parse.skip m) with
      | [] => Prog.fault
      | c :: m =>
        if c = 93 then pure (.ok m)
        else withChild al item fun child =>
          orReturn (skipped (parseValue f child) (c :: m)) fun value => parseItems f child value

/-- The loop of `parse_array`; `child` is the entry read last. -/
def parseItems : ℕ → Addr → Bytes → Prog TextPtr
  | 0, _, _ => Prog.fault
  | _+1, _, [] => Prog.fault
  | f+1, child, b :: m =>
    if b = 44 then withNext al child fun newitem =>
      orReturn (skipped (parseValue f newitem) m) fun value => parseItems f newitem value
    else if b = 93 then pure (.ok m)
    else pure (.error (some (b :: m)))

def parseObject : ℕ → Addr → Bytes → Prog TextPtr
  | 0, _, _ => Prog.fault
  | _+1, _, [] => Prog.fault
  | f+1, item, b :: m =>
    if b ≠ 123 then pure (.error (some (b :: m)))
    else do
      modifyNode (some item) fun n => { n with type := .object }
      match ← reads (Parse.skip m) with
      | [] => Prog.fault
      | c :: m =>
        if c = 125 then pure (.ok m)
        else withChild al item fun child =>
          orReturn (parseMember f child (c :: m)) fun value => parseMembers f child value

/-- One `name : value` entry of `parse_object` with the space behind it. -/
def parseMember : ℕ → Addr → Bytes → Prog TextPtr
  | 0, _, _ => Prog.fault
  | f+1, child, value =>
    orReturn (skipped (parseString al child) value) fun value => do
      modifyNode (some child) fun n => { n with string := n.valuestring, valuestring := none }
      match value with
      | [] => Prog.fault
      | b :: m =>
        if b ≠ 58 then pure (.error (some (b :: m)))
        else skipped (parseValue f child) m

/-- The loop of `parse_object`; `child` is the entry read last. -/
def parseMembers : ℕ → Addr → Bytes → Prog TextPtr
  | 0, _, _ => Prog.fault
  | _+1, _, [] => Prog.fault
  | f+1, child, b :: m =>
    if b = 44 then withNext al child fun newitem =>
      orReturn (parseMember f newitem m) fun value => parseMembers f newitem value
    else if b = 125 then pure (.ok m)
    else pure (.error (some (b :: m)))

end

/-- `cJSON_Delete(c); return 0;`. -/
def reject (c : Addr) (ep : Option Bytes) : Prog (Except (Option Bytes) (Addr × Bytes)) := do
  delete fuel (some c)
  pure (.error ep)

/-- `cJSON_ParseWithOpts`: the item and `*return_parse_end`, or NULL with what `ep` says. -/
def parseWithOpts (requireNullTerminated : Bool) (value : Option Bytes) :
    Prog (Except (Option Bytes) (Addr × Bytes)) := do
  match ← newItem al with
  | none => pure (.error none)
  | some c =>
    match value with
    | none => reject fuel c none
    | some m =>
      match ← parseValue al p fuel c (← reads (Parse.skip m)) with
      | .error ep => reject fuel c ep
      | .ok rest =>
        if requireNullTerminated then
          match ← reads (Parse.skip rest) with
          | [] => Prog.fault
          | b :: m => if b ≠ 0 then reject fuel c (some (b :: m)) else pure (.ok (c,b :: m))
        else pure (.ok (c,rest))

def parse (value : Option Bytes) : Prog Ptr := do
  match ← parseWithOpts al fuel p false value with
  | .error _ => pure none
  | .ok x => pure (some x.1)

end model

end CJsonHeap

namespace Parse

def Reading {α : Type} (P : α → Prop) : Outcome α → Prop
  | .done a => P a
  | .null => False
  | .fault => True

namespace Reading

variable {α β : Type} {P Q : α → Prop} {o o' : Outcome α}

theorem mono (h : Reading P o) (hPQ : ∀ a, P a → Q a) : Reading Q o := by
  cases o with
  | done a => exact hPQ a h
  | null => exact h
  | fault => trivial

theorem bind {R : β → Prop} {f : α → Outcome β} (h : Reading P o) (hf : ∀ a, P a → Reading R (f a)) :
    Reading R (o >>= f) := by
  cases o with
  | done a => exact hf a h
  | null => exact h
  | fault => trivial

theorem ite {c : Prop} [Decidable c] (h : c → Reading P o) (h' : ¬ c → Reading P o') :
    Reading P (if c then o else o') := by
  by_cases hc : c
  · rw [if_pos hc]
    exact h hc
  · rw [if_neg hc]
    exact h' hc

end Reading

def Inside {α : Type} (m : Bytes) (r : α × Bytes) : Prop := r.2 <:+ m

theorem Inside.cons {α : Type} {m : Bytes} {r : α × Bytes} (h : Inside m r) (b : UInt8) :
    Inside (b :: m) r := List.IsSuffix.trans h (List.suffix_cons b m)

theorem inside_self {α : Type} (a : α) (m : Bytes) : Inside m (a,m) := List.suffix_refl m

theorem skip_reading (m : Bytes) : Reading (fun r => r <:+ m) (skip m) := by
  induction m with
  | nil => trivial
  | cons b m ih =>
    unfold skip
    exact Reading.ite (fun _ => ih.mono fun r hr => hr.trans (List.suffix_cons b m))
      (fun _ => List.suffix_refl _)

theorem startsWith_reading (l m : Bytes) :
    Reading (fun ok => ok = true → m = l ++ m.drop l.length) (startsWith l m) := by
  induction l generalizing m with
  | nil => exact fun _ => rfl
  | cons c l ih =>
    cases m with
    | nil => trivial
    | cons b m =>
      unfold startsWith
      refine Reading.ite (fun hb => ?_) (fun _ => by simp [Reading])
      refine (ih m).mono fun ok h hok => ?_
      subst hb
      simpa using h hok

theorem digits_reading (m : Bytes) : Reading (Inside m) (digits m) := by
  induction m with
  | nil => trivial
  | cons b m ih =>
    unfold digits
    refine Reading.ite (fun _ => ih.bind fun r hr => ?_) (fun _ => inside_self _ _)
    exact Inside.cons (r := (_,r.2)) hr b

theorem wholePart_reading (m : Bytes) : Reading (Inside m) (wholePart m) := by
  cases m with
  | nil => trivial
  | cons b m =>
    have hzero : (if b = 48 then m else b :: m) <:+ b :: m := by
      split
      · exact List.suffix_cons b m
      · exact List.suffix_refl _
    rw [wholePart_eq]
    refine Reading.mono (P := Inside (if b = 48 then m else b :: m)) ?_ fun r hr =>
      List.IsSuffix.trans hr hzero
    cases (if b = 48 then m else b :: m) with
    | nil => trivial
    | cons c n => exact Reading.ite (fun _ => digits_reading _) (fun _ => inside_self _ _)

theorem fraction_reading (m : Bytes) : Reading (Inside m) (fraction m) := by
  cases m with
  | nil => trivial
  | cons b m =>
    unfold fraction
    refine Reading.ite (fun _ => ?_) (fun _ => inside_self _ _)
    cases m with
    | nil => trivial
    | cons d m =>
      exact Reading.ite (fun _ => (digits_reading _).mono fun r hr => hr.cons b)
        (fun _ => inside_self _ _)

theorem exponent_reading (m : Bytes) : Reading (Inside m) (exponent m) := by
  cases m with
  | nil => trivial
  | cons b m =>
    unfold exponent
    refine Reading.ite (fun _ => ?_) (fun _ => inside_self _ _)
    cases m with
    | nil => trivial
    | cons s m =>
      have hsign : (if s = 43 ∨ s = 45 then m else s :: m) <:+ b :: s :: m := by
        split
        · exact (List.suffix_cons s m).trans (List.suffix_cons b _)
        · exact List.suffix_cons b _
      exact (digits_reading _).bind fun r hr => List.IsSuffix.trans hr hsign

theorem parseNumber_reading (p : Platform) (m : Bytes) : Reading (Inside m) (parseNumber p m) := by
  cases m with
  | nil => trivial
  | cons b m =>
    have hsign : (if b = 45 then m else b :: m) <:+ b :: m := by
      split
      · exact List.suffix_cons b m
      · exact List.suffix_refl _
    unfold parseNumber
    refine (wholePart_reading _).bind fun w hw => (fraction_reading _).bind fun fr hfr =>
      (exponent_reading _).bind fun ex hex => ?_
    exact ((List.IsSuffix.trans hex hfr).trans hw).trans hsign

theorem parseHex_reading (n h : ℕ) (m : Bytes) : Reading (fun _ => True) (parseHex n h m) := by
  induction n generalizing h m with
  | zero => trivial
  | succ n ih =>
    cases m with
    | nil => trivial
    | cons b m =>
      unfold parseHex
      split
      · trivial
      · exact ih _ _

theorem unescapeUnicode_reading (m : Bytes) : Reading (Inside m) (unescapeUnicode m) := by
  have hdrop (n : ℕ) (bs : Bytes) : Inside m (bs,m.drop n) := List.drop_suffix n m
  unfold unescapeUnicode
  refine (parseHex_reading 4 0 m).bind fun uc _ => ?_
  refine Reading.ite (fun _ => hdrop 4 _) (fun _ => Reading.ite (fun _ => ?_) (fun _ => hdrop 4 _))
  split
  · trivial
  · refine Reading.ite (fun _ => hdrop 4 _) (fun _ => ?_)
    split
    · trivial
    · refine Reading.ite (fun _ => hdrop 4 _) (fun _ => (parseHex_reading 4 0 _).bind fun uc₂ _ => ?_)
      exact Reading.ite (fun _ => hdrop 10 _) (fun _ => hdrop 10 _)

theorem unescape_reading (f : ℕ) (m : Bytes) : Reading (Inside m) (unescape f m) := by
  induction f generalizing m with
  | zero => trivial
  | succ f ih =>
    cases m with
    | nil => trivial
    | cons b m =>
      have hcons {n : Bytes} (hn : n <:+ m) (c : Bytes) :
          Reading (Inside (b :: m)) (do let r ← unescape f n; .done (c ++ r.1,r.2)) :=
        (ih n).bind fun r hr => Inside.cons (r := (c ++ r.1,r.2)) (List.IsSuffix.trans hr hn) b
      unfold unescape
      refine Reading.ite (fun _ => inside_self _ _) (fun _ => Reading.ite
        (fun _ => hcons (List.suffix_refl _) [b]) (fun _ => ?_))
      cases m with
      | nil => trivial
      | cons e m =>
        refine Reading.ite (fun _ => ?_) (fun _ => hcons (List.suffix_cons e m) [_])
        refine (unescapeUnicode_reading m).bind fun u hu => hcons ?_ u.1
        exact List.IsSuffix.trans hu (List.suffix_cons e m)

theorem scanLen_reading (m : Bytes) : Reading (fun len => len < m.length) (scanLen m) := by
  fun_induction scanLen m with
  | case1 => trivial
  | case2 => exact Nat.zero_lt_succ _
  | case3 => trivial
  | case4 _ _ _ ih =>
    refine ih.bind fun n hn => ?_
    simp only [Reading,List.length_cons]
    omega
  | case5 _ _ _ _ ih => exact ih.bind fun _ hn => Nat.succ_lt_succ hn

def skipped {β : Type} (c : Bytes → Outcome (β × Bytes)) (value : Bytes) : Outcome (β × Bytes) := do
  let r ← c (← skip value)
  let m ← skip r.2
  .done (r.1,m)

theorem skipped_bind {β γ : Type} (c : Bytes → Outcome (β × Bytes)) (m : Bytes)
    (g : β × Bytes → Outcome γ) : (skipped c m >>= g) =
      (do let r ← c (← skip m); let w ← skip r.2; g (r.1,w)) := by
  unfold skipped
  cases skip m with
  | null => rfl
  | fault => rfl
  | done v =>
    simp only [Outcome.done_bind]
    cases c v with
    | null => rfl
    | fault => rfl
    | done r =>
      simp only [Outcome.done_bind]
      cases skip r.2 <;> rfl

def memberSkipped (p : Platform) (f : ℕ) (m : Bytes) : Outcome (CJson × Bytes) := do
  let r ← parseMember p f m
  let w ← skip r.2
  .done (r.1,w)

theorem memberSkipped_bind {γ : Type} (p : Platform) (f : ℕ) (m : Bytes)
    (g : CJson × Bytes → Outcome γ) : (memberSkipped p f m >>= g) =
      (do let r ← parseMember p f m; let w ← skip r.2; g (r.1,w)) := by
  unfold memberSkipped
  cases parseMember p f m with
  | null => rfl
  | fault => rfl
  | done r =>
    simp only [Outcome.done_bind]
    cases skip r.2 <;> rfl

theorem memberSkipped_succ (p : Platform) (f : ℕ) (m : Bytes) : memberSkipped p (f + 1) m =
    (skipped parseString m >>= fun s => match s.2 with
      | [] => .fault
      | b :: n => if b ≠ 58 then .null
        else skipped (parseValue p f) n >>= fun r => .done (r.1.named s.1,r.2)) := by
  simp only [skipped_bind,memberSkipped,parseMember]
  cases skip m with
  | null => rfl
  | fault => rfl
  | done v =>
    simp only [Outcome.done_bind]
    cases parseString v with
    | null => rfl
    | fault => rfl
    | done s =>
      simp only [Outcome.done_bind]
      cases skip s.2 with
      | null => rfl
      | fault => rfl
      | done w =>
        simp only [Outcome.done_bind]
        cases w with
        | nil => rfl
        | cons b n =>
          by_cases hb : b ≠ 58
          · simp only [if_pos hb,Outcome.null_bind]
          · simp only [if_neg hb]
            cases skip n with
            | null => rfl
            | fault => rfl
            | done x =>
              simp only [Outcome.done_bind]
              cases parseValue p f x <;> rfl

end Parse

namespace CJsonHeap

open OwnedHeap

/-- What the program meets where the function on the text does not fault. -/
def Beside {α β : Type} (o : Outcome β) (pre : Cells) (c : Prog α) (goal : Outcome β → α → Cells → Prop) :
    Prop := o ≠ .fault → Spec pre c (goal o)

namespace Beside

variable {α β γ : Type} {pre cs : Cells} {o : Outcome β} {goal : Outcome β → α → Cells → Prop}

theorem fault {c : Prog α} : Beside (.fault : Outcome β) pre c goal := fun h => absurd rfl h

theorem pure {r : α} (h : goal o r pre) : Beside o pre (Pure.pure r) goal := fun _ => Spec.pure h

theorem reads {P : γ → Prop} {x : Outcome γ} {g : γ → Outcome β} {k : γ → Prog α}
    (hx : Parse.Reading P x) (hk : ∀ a, P a → x = .done a → Beside (g a) pre (k a) goal) :
    Beside (x >>= g) pre (reads x >>= k) goal := by
  cases x with
  | done a => exact hk a hx rfl
  | null => exact hx.elim
  | fault => exact fault

theorem congr {c : Prog α} (hpre : pre = cs) (h : Beside o cs c goal) : Beside o pre c goal := hpre ▸ h

theorem modifyNode {a : Addr} {n : Node} {f : Node → Node} {k : Unit → Prog α}
    (hpre : pre = cell a (.node n) + cs) (hk : Beside o (cell a (.node (f n)) + cs) (k ()) goal) :
    Beside o pre (modifyNode (some a) f >>= k) goal := fun h => modifyNode_spec hpre (hk h)

theorem newItem {al : Allocator Addr Block} {k : Ptr → Prog α}
    (hnone : ¬ al.Total → Beside o pre (k none) goal)
    (hsome : ∀ a, Beside o (cell a (.node Node.zero) + pre) (k (some a)) goal) :
    Beside o pre (newItem al >>= k) goal :=
  fun h => Spec.malloc (fun ht => hnone ht h) fun a => hsome a h

end Beside

variable (al : Allocator Addr Block) (fuel : ℕ) (p : Platform)

/-- How a run from `m` on ends: with what the function on the text has read, in `n` nodes, or
with NULL, and `ep` points into the text or there was no memory. -/
def Ends {β : Type} (m : Bytes) (done : β → ℕ → Cells → Prop) (failed : ℕ → Cells → Prop)
    (o : Outcome (β × Bytes)) (r : TextPtr) (cs : Cells) : Prop :=
  match r with
  | .ok rest => ∃ b n, o = .done (b,rest) ∧ rest <:+ m ∧ n + rest.length ≤ m.length ∧ done b n cs
  | .error (some ep) => o = .null ∧ ep <:+ m ∧ ∃ n, n ≤ m.length ∧ failed n cs
  | .error none => ¬ al.Total ∧ ∃ n, n ≤ m.length ∧ failed n cs

variable {al}

theorem Beside.orReturn {β γ : Type} {m v : Bytes} {pre own other : Cells} {c : Prog TextPtr}
    {k : Bytes → Prog TextPtr} {o : Outcome (β × Bytes)} {g : β × Bytes → Outcome (γ × Bytes)}
    {done : β → ℕ → Cells → Prop} {done' : γ → ℕ → Cells → Prop} {failed failed' : ℕ → Cells → Prop}
    (h : Beside o own c (Ends al v done failed)) (hpre : pre = own + other) (hv : v <:+ m)
    (hfailed : ∀ n cs, n ≤ v.length → failed n cs → ∃ n', n' ≤ m.length ∧ failed' n' (cs + other))
    (hk : ∀ b n rest cs, rest <:+ v → n + rest.length ≤ v.length → done b n cs →
      Beside (g (b,rest)) (cs + other) (k rest) (Ends al m done' failed')) :
    Beside (o >>= g) pre (orReturn c k) (Ends al m done' failed') := by
  intro hf
  have ho : o ≠ .fault := by
    rintro rfl
    exact hf rfl
  refine Spec.call (h ho) hpre ?_
  rintro (ep | rest) cs hr
  · cases ep with
    | none =>
      obtain ⟨hal,n,hn,hcs⟩ := hr
      exact Spec.pure ⟨hal,hfailed n cs hn hcs⟩
    | some ep =>
      obtain ⟨rfl,hep,n,hn,hcs⟩ := hr
      exact Spec.pure ⟨rfl,hep.trans hv,hfailed n cs hn hcs⟩
  · obtain ⟨b,n,rfl,hrest,hn,hcs⟩ := hr
    exact hk b n rest cs hrest hn hcs hf

theorem Beside.tail {β γ : Type} {m v : Bytes} {pre own other : Cells} {c : Prog TextPtr}
    {o : Outcome (β × Bytes)} (g : β → γ) {done : β → ℕ → Cells → Prop} {done' : γ → ℕ → Cells → Prop}
    {failed failed' : ℕ → Cells → Prop} (h : Beside o own c (Ends al v done failed))
    (hpre : pre = own + other) (hv : v <:+ m)
    (hfailed : ∀ n cs, n ≤ v.length → failed n cs → ∃ n', n' ≤ m.length ∧ failed' n' (cs + other))
    (hdone : ∀ b n (rest : Bytes) cs, n + rest.length ≤ v.length → done b n cs →
      ∃ n', n' + rest.length ≤ m.length ∧ done' (g b) n' (cs + other)) :
    Beside (o >>= fun r => .done (g r.1,r.2)) pre c (Ends al m done' failed') := by
  intro hf
  have ho : o ≠ .fault := by
    rintro rfl
    exact hf rfl
  refine Spec.tail (h ho) hpre ?_
  rintro ((_ | ep) | rest) cs hr
  · obtain ⟨hal,n,hn,hcs⟩ := hr
    exact ⟨hal,hfailed n cs hn hcs⟩
  · obtain ⟨rfl,hep,n,hn,hcs⟩ := hr
    exact ⟨rfl,hep.trans hv,hfailed n cs hn hcs⟩
  · obtain ⟨b,n,rfl,hrest,hn,hcs⟩ := hr
    obtain ⟨n',hn',hcs'⟩ := hdone b n rest cs hn hcs
    exact ⟨g b,n',rfl,hrest.trans hv,hn',hcs'⟩

theorem Beside.skipped {β : Type} {own : Cells} {c : Bytes → Prog TextPtr}
    {o : Bytes → Outcome (β × Bytes)} {done : β → ℕ → Cells → Prop} {failed : ℕ → Cells → Prop}
    (h : ∀ v, v.length ≤ INT_MAX → Beside (o v) own (c v) (Ends al v done failed)) {m : Bytes}
    (hm : m.length ≤ INT_MAX) :
    Beside (Parse.skipped o m) own (skipped c m) (Ends al m done failed) := by
  refine Beside.reads (Parse.skip_reading m) fun v hv _ => ?_
  refine Beside.orReturn (h v (hv.length_le.trans hm)) (add_zero own).symm hv (fun n cs hn hcs => ?_)
    fun b n rest cs hrest hn hcs => ?_
  · exact ⟨n,hn.trans hv.length_le,by rwa [add_zero]⟩
  · refine Beside.reads (Parse.skip_reading rest) fun w hw _ => Beside.pure ⟨b,n,rfl,?_,?_,?_⟩
    · exact (hw.trans hrest).trans hv
    · have hlen := hw.length_le
      have hlen' := hv.length_le
      omega
    · rwa [add_zero]

def Filled (a : Addr) (prev : Ptr) (name : Option Text) (t : CJson) (n : ℕ) (cs : Cells) : Prop :=
  ∃ u : Item, u.addr = a ∧ u.string = name ∧ (u.named none).tree = t ∧ u.size = n ∧ u.Owned ∧
    cs = u.cells prev none

/-- What is left of the item at `a` when the parser gives up. -/
def Left (a : Addr) (prev : Ptr) (n : ℕ) (cs : Cells) : Prop :=
  ∃ u : Item, u.addr = a ∧ u.size = n ∧ u.Owned ∧ cs = u.cells prev none

def Item.blank (a : Addr) (ty : CJsonType) (name : Option Text) : Item := .mk a ty none 0 0 name []

section leaves

variable (a : Addr) (prev : Ptr) (name : Option Text) (ty : CJsonType)

theorem leaf_cells (vs : Option Text) (vi : ℤ) (vd : F64) (next : Ptr) :
    (Item.mk a ty vs vi vd name []).cells prev next =
      cell a (.node ⟨next,prev,none,ty,false,textPtr vs,vi,vd,textPtr name⟩) +
        (textCells vs + textCells name) := by
  rw [Item.cells,Item.owned,chain_nil,add_zero]
  rfl

theorem blank_cells (next : Ptr) : (Item.blank a ty name).cells prev next =
    cell a (.node ⟨next,prev,none,ty,false,none,0,0,textPtr name⟩) + textCells name := by
  rw [Item.blank,leaf_cells,textCells,zero_add]
  rfl

theorem left_blank : Left a prev 1 ((Item.blank a ty name).cells prev none) :=
  ⟨Item.blank a ty name,rfl,rfl,trivial,rfl⟩

theorem filled_leaf (vs : Option Text) (vi : ℤ) (vd : F64) :
    Filled a prev name (.mk ty (vs.map Prod.snd) vi vd none []) 1
      ((Item.mk a ty vs vi vd name []).cells prev none) :=
  ⟨Item.mk a ty vs vi vd name [],rfl,rfl,rfl,rfl,trivial,rfl⟩

end leaves

section tokens

variable (al) (a : Addr) (prev : Ptr) (name : Option Text) (ty : CJsonType)

theorem Beside.leaf {m rest : Bytes} {f : Node → Node} {ty' : CJsonType} {vi : ℤ} {vd : F64}
    (hf : ∀ string : Ptr, f ⟨none,prev,none,ty,false,none,0,0,string⟩ =
      ⟨none,prev,none,ty',false,none,vi,vd,string⟩)
    (hrest : rest <:+ m) (hlen : rest.length < m.length) :
    Beside (.done (CJson.mk ty' none vi vd none [],rest)) ((Item.blank a ty name).cells prev none)
      (CJsonHeap.modifyNode (some a) f >>= fun _ => Pure.pure (Except.ok rest))
      (Ends al m (Filled a prev name) (Left a prev)) := by
  refine Beside.modifyNode (blank_cells a prev name ty none) (Beside.pure ⟨_,1,rfl,hrest,by omega,?_⟩)
  have hfilled := filled_leaf a prev name ty' none vi vd
  rw [leaf_cells,textCells,zero_add] at hfilled
  rw [hf]
  exact hfilled

theorem parseNumber_beside {b : UInt8} (hb : b = 45 ∨ isDigit b = true) (m : Bytes) :
    Beside (Parse.parseNumber p (b :: m)) ((Item.blank a ty name).cells prev none)
      (parseNumber p a (b :: m)) (Ends al (b :: m) (Filled a prev name) (Left a prev)) := by
  have hinside := Parse.parseNumber_reading p (b :: m)
  have hshorter := Parse.literal_shorter hb m
  rw [Parse.parseNumber_eq] at hinside ⊢
  rw [parseNumber,Parse.parseNumber_eq]
  cases hl : Parse.literal (b :: m) with
  | null =>
    rw [hl] at hinside
    exact hinside.elim
  | fault => exact Beside.fault
  | done l =>
    rw [hl] at hinside
    exact Beside.leaf al a prev name ty (fun _ => rfl) hinside (hshorter l hl)

def Spoken (s : CString) (n : ℕ) (cs : Cells) : Prop :=
  n = 1 ∧ ∃ b, cs = (Item.mk a .string (some (b,s)) 0 0 name []).cells prev none

theorem parseString_beside {m : Bytes} (hm : m.length ≤ INT_MAX) :
    Beside (Parse.parseString m) ((Item.blank a ty name).cells prev none)
      (parseString al a m) (Ends al m (Spoken a prev name) (Left a prev)) := by
  have hshorter := Parse.parseString_shorter m
  cases m with
  | nil => exact Beside.fault
  | cons b m =>
    rw [Parse.parseString,parseString]
    by_cases hb : b ≠ 34
    · rw [if_pos hb,if_pos hb]
      exact Beside.pure ⟨rfl,List.suffix_refl _,1,by simp,left_blank a prev name ty⟩
    rw [if_neg hb,if_neg hb]
    rw [Parse.parseString,if_neg hb] at hshorter
    refine Beside.reads (Parse.scanLen_reading m) fun len hlt hlen => ?_
    rw [List.length_cons] at hm
    intro hf
    refine intOf_spec (by omega) ?_
    refine Spec.malloc (fun hal => Spec.pure ⟨hal,1,by simp,left_blank a prev name ty⟩) fun out => ?_
    revert hf
    refine Beside.reads (Parse.unescape_reading (m.length + 1) m) fun r hr hdone => ?_
    rw [hlen,hdone,Outcome.done_bind,Outcome.done_bind] at hshorter
    by_cases hfit : len < r.1.length
    · rw [if_pos hfit]
      exact Beside.fault
    rw [if_neg hfit,if_neg hfit]
    rw [if_neg hfit] at hshorter
    obtain ⟨s,rest⟩ := r
    cases rest with
    | nil => exact Beside.fault
    | cons q rest =>
      intro hf
      have hlen' := hshorter _ rfl
      have hrest : (if q = 34 then rest else q :: rest) <:+ b :: m := by
        refine List.IsSuffix.trans ?_ (List.IsSuffix.trans hr (List.suffix_cons b m))
        split
        · exact List.suffix_cons q rest
        · exact List.suffix_refl _
      refine Spec.store rfl (modifyNode_spec (show _ = cell a _ + (textCells name +
        cell out (.text (CString.ofMem s))) by rw [blank_cells]; abel) (Spec.pure
          ⟨CString.ofMem s,1,rfl,hrest,?_,rfl,out,?_⟩))
      · change (if q = 34 then rest else q :: rest).length < _ at hlen'
        omega
      · rw [leaf_cells,textCells,add_comm (cell out _) (textCells name)]
        rfl

end tokens

def Said (a : Addr) (prev : Ptr) (t : CJson) (n : ℕ) (cs : Cells) : Prop :=
  ∃ u : Item, u.addr = a ∧ u.tree = t ∧ u.size = n ∧ u.Owned ∧ cs = u.cells prev none

/-- The item `c` and behind it items that say `ts`. -/
def Followed (c : Item) (prev : Ptr) (ts : List CJson) (n : ℕ) (cs : Cells) : Prop :=
  ∃ us, trees us = ts ∧ sizes us = n ∧ AllOwned us ∧ cs = chain prev none (c :: us)

/-- The item `c` and what is left behind it when the parser gives up. -/
def LeftBehind (c : Item) (prev : Ptr) (n : ℕ) (cs : Cells) : Prop :=
  ∃ us, sizes us = n ∧ AllOwned us ∧ cs = chain prev none (c :: us)

variable (al) in
def ReadsEntry (o : Bytes → Outcome (CJson × Bytes)) (entry : Addr → Bytes → Prog TextPtr) : Prop :=
  ∀ a prev m, m.length ≤ INT_MAX → Beside (o m) ((Item.blank a .false none).cells prev none) (entry a m)
    (Ends al m (Said a prev) (Left a prev))

variable (al) in
def ReadsEntries (o : Bytes → Outcome (List CJson × Bytes)) (loop : Addr → Bytes → Prog TextPtr) : Prop :=
  ∀ (c : Item) (prev : Ptr) (m : Bytes), m.length ≤ INT_MAX → Beside (o m) (c.cells prev none) (loop c.addr m)
    (Ends al m (Followed c prev) (LeftBehind c prev))

section entries

variable {o : Bytes → Outcome (CJson × Bytes)} {os : Bytes → Outcome (List CJson × Bytes)}
  {entry loop : Addr → Bytes → Prog TextPtr}

theorem Item.node_withNext (c : Item) (prev : Ptr) (a : Addr) :
    { c.node prev none with next := some a } = c.node prev (some a) := by
  cases c <;> rfl

theorem Beside.withNext (hentry : ReadsEntry al o entry) (hloop : ReadsEntries al os loop) {m v : Bytes}
    (hm : m.length ≤ INT_MAX) (hv : v <:+ m) (c : Item) (prev : Ptr) :
    Beside (o v >>= fun r => os r.2 >>= fun rs => .done (r.1 :: rs.1,rs.2)) (c.cells prev none)
      (CJsonHeap.withNext al c.addr fun newitem => CJsonHeap.orReturn (entry newitem v) fun value => loop newitem value)
      (Ends al m (Followed c prev) (LeftBehind c prev)) := by
  refine Beside.newItem (fun hal => Beside.pure ⟨hal,0,Nat.zero_le _,[],rfl,trivial,?_⟩) fun a => ?_
  · exact (chain_singleton prev none c).symm
  refine Beside.modifyNode (show _ = cell c.addr (.node (c.node prev none)) + (c.owned +
    cell a (.node Node.zero)) by rw [Item.cells]; abel) ?_
  rw [c.node_withNext]
  refine Beside.modifyNode (show _ = cell a (.node Node.zero) + c.cells prev (some a) by
    rw [Item.cells]; abel) ?_
  have hblank : cell a (.node { Node.zero with prev := some c.addr }) =
      (Item.blank a .false none).cells (some c.addr) none := by
    rw [blank_cells,textCells,add_zero]
    rfl
  rw [hblank]
  have hvm := hv.length_le.trans hm
  refine Beside.orReturn (hentry a (some c.addr) v hvm) rfl hv ?_ ?_
  · rintro n _ hn ⟨u,rfl,rfl,hu,rfl⟩
    refine ⟨u.size,hn.trans hv.length_le,[u],by simp [sizes],⟨hu,trivial⟩,?_⟩
    rw [chain_cons,chain_singleton,headPtr_cons,add_comm]
  · rintro t n rest _ hrest hn ⟨u,rfl,rfl,rfl,hu,rfl⟩
    have hchain (us : List Item) : chain prev none (c :: u :: us) =
        chain (some c.addr) none (u :: us) + c.cells prev (some u.addr) := by
      rw [chain_cons_comm,headPtr_cons]
    refine Beside.tail (fun ts => u.tree :: ts) (hloop u (some c.addr) rest (hrest.length_le.trans hvm)) rfl
      (hrest.trans hv) ?_ ?_
    · rintro k _ hk ⟨us,rfl,hus,rfl⟩
      refine ⟨u.size + sizes us,?_,u :: us,rfl,⟨hu,hus⟩,(hchain us).symm⟩
      have hvlen := hv.length_le
      omega
    · rintro ts k rest' _ hk ⟨us,rfl,rfl,hus,rfl⟩
      refine ⟨u.size + sizes us,?_,u :: us,rfl,rfl,⟨hu,hus⟩,(hchain us).symm⟩
      have hvlen := hv.length_le
      omega

theorem Beside.withChild (hentry : ReadsEntry al o entry) (hloop : ReadsEntries al os loop) {m v : Bytes}
    (hm : m.length ≤ INT_MAX) (hv : v <:+ m) (hlen : v.length < m.length) (a : Addr) (prev : Ptr) (name : Option Text)
    (ty : CJsonType) :
    Beside (o v >>= fun r => os r.2 >>= fun rs => .done (CJson.mk ty none 0 0 none (r.1 :: rs.1),rs.2))
      ((Item.blank a ty name).cells prev none)
      (CJsonHeap.withChild al a fun child => CJsonHeap.orReturn (entry child v) fun value => loop child value)
      (Ends al m (Filled a prev name) (Left a prev)) := by
  have hcells (u : Item) (us : List Item) : chain none none (u :: us) +
      (cell a (.node ⟨none,prev,some u.addr,ty,false,none,0,0,textPtr name⟩) + textCells name) =
      (Item.mk a ty none 0 0 name (u :: us)).cells prev none := by
    rw [Item.cells,Item.owned,textCells,zero_add,add_comm,add_assoc]
    rfl
  have hone : 1 ≤ m.length := by omega
  refine Beside.newItem (fun hal => ?_) fun c => ?_
  · refine Beside.modifyNode (blank_cells a prev name ty none) (Beside.pure ⟨hal,1,hone,?_⟩)
    have hleft := left_blank a prev name ty
    rwa [blank_cells] at hleft
  refine Beside.modifyNode (show _ = cell a _ + (textCells name + cell c (.node Node.zero)) by
    rw [blank_cells]; abel) ?_
  have hblank : cell c (.node Node.zero) = (Item.blank c .false none).cells none none := by
    rw [blank_cells,textCells,add_zero]
    rfl
  rw [hblank]
  change Beside _ (cell a (.node ⟨none,prev,some c,ty,false,none,0,0,textPtr name⟩) + (textCells name + _)) _ _
  have hvm := hv.length_le.trans hm
  refine Beside.orReturn (hentry c none v hvm) (show _ = _ +
    (cell a (.node ⟨none,prev,some c,ty,false,none,0,0,textPtr name⟩) + textCells name) by abel) hv ?_ ?_
  · rintro n _ hn ⟨u,rfl,rfl,hu,rfl⟩
    refine ⟨u.size + 1,by omega,.mk a ty none 0 0 name [u],rfl,by simp [Item.size,sizes],⟨hu,trivial⟩,?_⟩
    rw [← hcells,chain_singleton]
  · rintro t n rest _ hrest hn ⟨u,rfl,rfl,rfl,hu,rfl⟩
    refine Beside.tail (fun ts => CJson.mk ty none 0 0 none (u.tree :: ts))
      (hloop u none rest (hrest.length_le.trans hvm)) rfl
      (hrest.trans hv) ?_ ?_
    · rintro k _ hk ⟨us,rfl,hus,rfl⟩
      exact ⟨u.size + sizes us + 1,by omega,.mk a ty none 0 0 name (u :: us),rfl,rfl,⟨hu,hus⟩,hcells u us⟩
    · rintro ts k rest' _ hk ⟨us,rfl,rfl,hus,rfl⟩
      exact ⟨u.size + sizes us + 1,by omega,.mk a ty none 0 0 name (u :: us),rfl,rfl,rfl,rfl,⟨hu,hus⟩,
        hcells u us⟩

end entries

section parser

variable (al)

def ReadsValue (o : Bytes → Outcome (CJson × Bytes)) (value : Addr → Bytes → Prog TextPtr) : Prop :=
  ∀ a prev name ty m, m.length ≤ INT_MAX → Beside (o m) ((Item.blank a ty name).cells prev none) (value a m)
    (Ends al m (Filled a prev name) (Left a prev))

variable {al}

theorem Item.named_self {u : Item} (h : u.string = none) : u.named none = u := by
  cases u <;> subst h <;> rfl

theorem Item.tree_of_string {u : Item} {x : Text} (h : u.string = some x) :
    u.tree = (u.named none).tree.named x.2 := by
  cases u <;> subst h <;> rfl

theorem Beside.mono {β : Type} {m : Bytes} {pre : Cells} {c : Prog TextPtr} {o : Outcome (β × Bytes)}
    {done done' : β → ℕ → Cells → Prop} {failed : ℕ → Cells → Prop}
    (h : Beside o pre c (Ends al m done failed)) (hd : ∀ b n cs, done b n cs → done' b n cs) :
    Beside o pre c (Ends al m done' failed) := by
  intro hf
  refine (h hf).mono ?_
  rintro ((_ | ep) | rest) cs hr
  · exact hr
  · exact hr
  · obtain ⟨b,n,hb,hrest,hn,hcs⟩ := hr
    exact ⟨b,n,hb,hrest,hn,hd b n cs hcs⟩

theorem ReadsValue.entry {o : Bytes → Outcome (CJson × Bytes)} {value : Addr → Bytes → Prog TextPtr}
    (h : ReadsValue al o value) : ReadsEntry al (Parse.skipped o) fun a => skipped (value a) := by
  intro a prev m hm
  refine (Beside.skipped (h a prev none .false) hm).mono ?_
  rintro t n cs ⟨u,ha,hname,ht,hn,hu,hcs⟩
  rw [Item.named_self hname] at ht
  exact ⟨u,ha,ht,hn,hu,hcs⟩

theorem drop_keyword {l m : Bytes} (hl : 0 < l.length) {n : ℕ} (hn : 0 < n)
    (h : m = l ++ m.drop l.length) : (m.drop n).length < m.length := by
  have hm := congrArg List.length h
  rw [List.length_append] at hm
  rw [List.length_drop]
  omega

theorem parseValue_step {f : ℕ}
    (harray : ReadsValue al (Parse.parseArray p f) (parseArray al p f))
    (hobject : ReadsValue al (Parse.parseObject p f) (parseObject al p f)) :
    ReadsValue al (Parse.parseValue p (f + 1)) (parseValue al p (f + 1)) := by
  intro a prev name ty m hm
  unfold Parse.parseValue parseValue
  have hdrop {l : Bytes} {ok : Bool} (hl : 0 < l.length) {n : ℕ} (hn : 0 < n)
      (h : ok = true → m = l ++ m.drop l.length) (hok : ok = true) := drop_keyword hl hn (h hok)
  refine Beside.reads (Parse.startsWith_reading (utf8 "null") m) fun ok hok _ => ?_
  cases ok with
  | true =>
    exact Beside.leaf al a prev name ty (fun _ => rfl) (List.drop_suffix 4 m)
      (hdrop (by decide) (by decide) hok rfl)
  | false =>
  simp only [Bool.false_eq_true,if_false]
  refine Beside.reads (Parse.startsWith_reading (utf8 "false") m) fun ok hok _ => ?_
  cases ok with
  | true =>
    exact Beside.leaf al a prev name ty (fun _ => rfl) (List.drop_suffix 5 m)
      (hdrop (by decide) (by decide) hok rfl)
  | false =>
  simp only [Bool.false_eq_true,if_false]
  refine Beside.reads (Parse.startsWith_reading (utf8 "true") m) fun ok hok _ => ?_
  cases ok with
  | true =>
    exact Beside.leaf al a prev name ty (fun _ => rfl) (List.drop_suffix 4 m)
      (hdrop (by decide) (by decide) hok rfl)
  | false =>
  simp only [Bool.false_eq_true,if_false]
  cases m with
  | nil => exact Beside.fault
  | cons b m =>
    by_cases hquote : b = 34
    · simp only [if_pos hquote]
      refine Beside.tail (fun s => CJson.mk .string (some s) 0 0 none [])
        (parseString_beside al a prev name ty hm) (add_zero _).symm (List.suffix_refl _) ?_ ?_
      · rintro n cs hn hcs
        exact ⟨n,hn,by rwa [add_zero]⟩
      · rintro s n rest cs hn ⟨rfl,out,rfl⟩
        refine ⟨1,hn,?_⟩
        rw [add_zero]
        exact filled_leaf a prev name .string (some (out,s)) 0 0
    simp only [if_neg hquote]
    by_cases hnum : b = 45 ∨ isDigit b = true
    · simp only [if_pos hnum]
      exact parseNumber_beside al p a prev name ty hnum m
    simp only [if_neg hnum]
    by_cases hopen : b = 91
    · simp only [if_pos hopen]
      exact harray a prev name ty (b :: m) hm
    simp only [if_neg hopen]
    by_cases hbrace : b = 123
    · simp only [if_pos hbrace]
      exact hobject a prev name ty (b :: m) hm
    simp only [if_neg hbrace]
    exact Beside.pure ⟨rfl,List.suffix_refl _,1,by simp,left_blank a prev name ty⟩

theorem Beside.retype {α β : Type} {o : Outcome β} {a : Addr} {prev : Ptr} {name : Option Text}
    {ty ty' : CJsonType} {k : Unit → Prog α} {goal : Outcome β → α → Cells → Prop}
    (hk : Beside o ((Item.blank a ty' name).cells prev none) (k ()) goal) :
    Beside o ((Item.blank a ty name).cells prev none)
      (CJsonHeap.modifyNode (some a) (fun n => { n with type := ty' }) >>= k) goal := by
  refine Beside.modifyNode (blank_cells a prev name ty none) ?_
  rw [blank_cells] at hk
  exact hk

theorem parseArray_step {f : ℕ} (hvalue : ReadsValue al (Parse.parseValue p f) (parseValue al p f))
    (hitems : ReadsEntries al (Parse.parseItems p f) (parseItems al p f)) :
    ReadsValue al (Parse.parseArray p (f + 1)) (parseArray al p (f + 1)) := by
  intro a prev name ty m hm
  cases m with
  | nil => exact Beside.fault
  | cons b m =>
    unfold Parse.parseArray parseArray
    by_cases hb : b ≠ 91
    · simp only [if_pos hb]
      exact Beside.pure ⟨rfl,List.suffix_refl _,1,by simp,left_blank a prev name ty⟩
    simp only [if_neg hb]
    refine Beside.retype (Beside.reads (Parse.skip_reading m) fun v hv _ => ?_)
    have hlen := hv.length_le
    cases v with
    | nil => exact Beside.fault
    | cons c v =>
      by_cases hc : c = 93
      · simp only [if_pos hc]
        refine Beside.pure ⟨_,1,rfl,?_,?_,filled_leaf a prev name .array none 0 0⟩
        · exact ((List.suffix_cons c v).trans hv).trans (List.suffix_cons b m)
        · simp only [List.length_cons] at hlen ⊢
          omega
      · simp only [if_neg hc]
        have hentries := Beside.withChild hvalue.entry hitems hm (hv.trans (List.suffix_cons b m))
          (by rw [List.length_cons (a := b)]; omega) a prev name .array
        rw [Parse.skipped_bind] at hentries
        exact hentries

theorem parseItems_step {f : ℕ} (hvalue : ReadsValue al (Parse.parseValue p f) (parseValue al p f))
    (hitems : ReadsEntries al (Parse.parseItems p f) (parseItems al p f)) :
    ReadsEntries al (Parse.parseItems p (f + 1)) (parseItems al p (f + 1)) := by
  intro c prev m hm
  have hchain := (chain_singleton prev none c).symm
  cases m with
  | nil => exact Beside.fault
  | cons b m =>
    unfold Parse.parseItems parseItems
    by_cases hcomma : b = 44
    · simp only [if_pos hcomma]
      have hentries := Beside.withNext hvalue.entry hitems hm (List.suffix_cons b m) c prev
      rw [Parse.skipped_bind] at hentries
      exact hentries
    simp only [if_neg hcomma]
    by_cases hclose : b = 93
    · simp only [if_pos hclose]
      exact Beside.pure ⟨[],0,rfl,List.suffix_cons b m,by simp,[],rfl,rfl,trivial,hchain⟩
    simp only [if_neg hclose]
    exact Beside.pure ⟨rfl,List.suffix_refl _,0,Nat.zero_le _,[],rfl,trivial,hchain⟩

theorem parseObject_step {f : ℕ} (hmember : ReadsEntry al (Parse.memberSkipped p f) (parseMember al p f))
    (hmembers : ReadsEntries al (Parse.parseMembers p f) (parseMembers al p f)) :
    ReadsValue al (Parse.parseObject p (f + 1)) (parseObject al p (f + 1)) := by
  intro a prev name ty m hm
  cases m with
  | nil => exact Beside.fault
  | cons b m =>
    unfold Parse.parseObject parseObject
    by_cases hb : b ≠ 123
    · simp only [if_pos hb]
      exact Beside.pure ⟨rfl,List.suffix_refl _,1,by simp,left_blank a prev name ty⟩
    simp only [if_neg hb]
    refine Beside.retype (Beside.reads (Parse.skip_reading m) fun v hv _ => ?_)
    have hlen := hv.length_le
    cases v with
    | nil => exact Beside.fault
    | cons c v =>
      by_cases hc : c = 125
      · simp only [if_pos hc]
        refine Beside.pure ⟨_,1,rfl,?_,?_,filled_leaf a prev name .object none 0 0⟩
        · exact ((List.suffix_cons c v).trans hv).trans (List.suffix_cons b m)
        · simp only [List.length_cons] at hlen ⊢
          omega
      · simp only [if_neg hc]
        have hentries := Beside.withChild hmember hmembers hm (hv.trans (List.suffix_cons b m))
          (by rw [List.length_cons (a := b)]; omega) a prev name .object
        rw [Parse.memberSkipped_bind] at hentries
        exact hentries

theorem parseMembers_step {f : ℕ} (hmember : ReadsEntry al (Parse.memberSkipped p f) (parseMember al p f))
    (hmembers : ReadsEntries al (Parse.parseMembers p f) (parseMembers al p f)) :
    ReadsEntries al (Parse.parseMembers p (f + 1)) (parseMembers al p (f + 1)) := by
  intro c prev m hm
  have hchain := (chain_singleton prev none c).symm
  cases m with
  | nil => exact Beside.fault
  | cons b m =>
    unfold Parse.parseMembers parseMembers
    by_cases hcomma : b = 44
    · simp only [if_pos hcomma]
      have hentries := Beside.withNext hmember hmembers hm (List.suffix_cons b m) c prev
      rw [Parse.memberSkipped_bind] at hentries
      exact hentries
    simp only [if_neg hcomma]
    by_cases hclose : b = 125
    · simp only [if_pos hclose]
      exact Beside.pure ⟨[],0,rfl,List.suffix_cons b m,by simp,[],rfl,rfl,trivial,hchain⟩
    simp only [if_neg hclose]
    exact Beside.pure ⟨rfl,List.suffix_refl _,0,Nat.zero_le _,[],rfl,trivial,hchain⟩

theorem parseMember_step {f : ℕ} (hvalue : ReadsValue al (Parse.parseValue p f) (parseValue al p f)) :
    ReadsEntry al (Parse.memberSkipped p (f + 1)) (parseMember al p (f + 1)) := by
  intro a prev m hm
  rw [Parse.memberSkipped_succ,parseMember]
  refine Beside.orReturn (Beside.skipped (fun v hv => parseString_beside al a prev none .false hv) hm)
    (add_zero _).symm (List.suffix_refl m) ?_ ?_
  · rintro n cs hn hcs
    exact ⟨n,hn,by rwa [add_zero]⟩
  rintro s n rest _ hrest hn ⟨rfl,out,rfl⟩
  rw [add_zero]
  -- the string becomes the name
  refine Beside.modifyNode (leaf_cells a prev none .string (some (out,s)) 0 0 none) ?_
  have hblank : cell a (.node ⟨none,prev,none,.string,false,none,0,0,some out⟩) +
      (textCells (some (out,s)) + textCells none) =
        (Item.blank a .string (some (out,s))).cells prev none := by
    rw [blank_cells,textCells,textCells,add_zero]
    rfl
  refine Beside.congr hblank ?_
  cases rest with
  | nil => exact Beside.fault
  | cons b v =>
    have hv : v <:+ m := (List.suffix_cons b v).trans hrest
    by_cases hb : b ≠ 58
    · simp only [if_pos hb]
      refine Beside.pure ⟨rfl,hrest,1,?_,left_blank a prev _ .string⟩
      omega
    simp only [if_neg hb]
    refine Beside.tail (fun t => t.named s) (Beside.skipped (hvalue a prev (some (out,s)) .string)
      (hv.length_le.trans hm)) (add_zero _).symm hv ?_ ?_
    · rintro n cs hn hcs
      exact ⟨n,hn.trans hv.length_le,by rwa [add_zero]⟩
    · rintro t n rest cs hn ⟨u,ha,hname,rfl,hsize,hu,hcs⟩
      have hlen := hv.length_le
      refine ⟨n,by omega,u,ha,Item.tree_of_string hname,hsize,hu,?_⟩
      rw [add_zero,hcs]

/-- Every function of the parser does on the heap what it does without one. -/
theorem parser_beside (f : ℕ) :
    ReadsValue al (Parse.parseValue p f) (parseValue al p f) ∧
    ReadsValue al (Parse.parseArray p f) (parseArray al p f) ∧
    ReadsEntries al (Parse.parseItems p f) (parseItems al p f) ∧
    ReadsValue al (Parse.parseObject p f) (parseObject al p f) ∧
    ReadsEntry al (Parse.memberSkipped p f) (parseMember al p f) ∧
    ReadsEntries al (Parse.parseMembers p f) (parseMembers al p f) := by
  induction f with
  | zero =>
    exact ⟨fun _ _ _ _ _ _ => Beside.fault,fun _ _ _ _ _ _ => Beside.fault,fun _ _ _ _ => Beside.fault,
      fun _ _ _ _ _ _ => Beside.fault,fun _ _ _ _ => Beside.fault,fun _ _ _ _ => Beside.fault⟩
  | succ f ih =>
    obtain ⟨hvalue,harray,hitems,hobject,hmember,hmembers⟩ := ih
    exact ⟨parseValue_step p harray hobject,parseArray_step p hvalue hitems,
      parseItems_step p hvalue hitems,parseObject_step p hmember hmembers,
      parseMember_step p hvalue,parseMembers_step p hmember hmembers⟩

end parser

section parse

variable (al)

/-- How parsing `m` ends: with an item that says what is read without a heap, or with NULL and
nothing left; `ep` tells a text that is no JSON from want of memory. -/
def Parsed (m : Bytes) (o : Outcome (CJson × Bytes)) (r : Except (Option Bytes) (Addr × Bytes))
    (cs : Cells) : Prop :=
  match r with
  | .ok x => ∃ u : Item, u.addr = x.1 ∧ o = .done (u.tree,x.2) ∧ x.2 <:+ m ∧ u.size ≤ m.length ∧
      u.Owned ∧ cs = u.cells none none
  | .error (some ep) => o = .null ∧ ep <:+ m ∧ cs = 0
  | .error none => ¬ al.Total ∧ cs = 0

variable {al}

theorem reject_spec (u : Item) (hu : u.size < fuel) (ep : Option Bytes)
    {goal : Except (Option Bytes) (Addr × Bytes) → Cells → Prop} (hgoal : goal (.error ep) 0) :
    Spec (u.cells none none) (reject fuel u.addr ep) goal := by
  refine Spec.call (delete_spec [u] (by simpa [sizes] using hu) none)
    (show _ = _ + 0 by rw [chain_singleton,add_zero]) ?_
  rintro _ _ rfl
  exact Spec.pure hgoal

theorem parseWithOpts_beside (requireNullTerminated : Bool) {m : Bytes} (hfuel : 3 * m.length + 3 ≤ fuel)
    (hmax : m.length ≤ INT_MAX) :
    Beside (Parse.parseWithOpts p requireNullTerminated m) 0
      (parseWithOpts al fuel p requireNullTerminated (some m)) (Parsed al m) := by
  refine Beside.newItem (fun hal => Beside.pure ⟨hal,rfl⟩) fun c => ?_
  have hblank : cell c (.node Node.zero) + 0 = (Item.blank c .false none).cells none none := by
    rw [blank_cells,textCells]
    rfl
  refine Beside.congr hblank (Beside.reads (Parse.skip_reading m) fun v hv _ => ?_)
  have hlen := hv.length_le
  intro hf
  have ho : Parse.parseValue p (3 * m.length + 3) v ≠ .fault := by
    rintro h
    exact hf (by rw [h]; rfl)
  have hreads : ReadsValue al (Parse.parseValue p fuel) (parseValue al p fuel) := (parser_beside p fuel).1
  have hvalue := hreads c none none .false v (hlen.trans hmax)
  rw [Parse.parseValue_fuel p hlen hfuel] at hvalue
  replace hvalue := hvalue ho
  refine Spec.call hvalue (add_zero _).symm ?_
  rintro ((_ | ep) | rest) cs hr
  · obtain ⟨hal,n,hn,u,rfl,rfl,-,rfl⟩ := hr
    rw [add_zero]
    exact reject_spec fuel u (by omega) none ⟨hal,rfl⟩
  · obtain ⟨hnull,hep,n,hn,u,rfl,rfl,-,rfl⟩ := hr
    rw [add_zero,hnull]
    exact reject_spec fuel u (by omega) (some ep) ⟨rfl,hep.trans hv,rfl⟩
  · obtain ⟨t,n,hdone,hrest,hn,u,rfl,hname,rfl,rfl,hu,rfl⟩ := hr
    rw [Item.named_self hname] at hdone
    rw [hdone] at hf
    rw [add_zero,hdone]
    revert hf
    cases requireNullTerminated with
    | false => exact Beside.pure ⟨u,rfl,rfl,hrest.trans hv,by omega,hu,rfl⟩
    | true =>
      refine Beside.reads (Parse.skip_reading rest) fun w hw _ => ?_
      cases w with
      | nil => exact Beside.fault
      | cons b w =>
        by_cases hb : b ≠ 0
        · simp only [if_pos hb]
          exact fun _ => reject_spec fuel u (by omega) (some (b :: w))
            ⟨rfl,(hw.trans hrest).trans hv,rfl⟩
        · simp only [if_neg hb]
          exact Beside.pure ⟨u,rfl,rfl,(hw.trans hrest).trans hv,by omega,hu,rfl⟩

variable (al)

theorem cJSONParse_eq (m : Bytes) : Parse.cJSONParse p m =
    (Parse.parseWithOpts p false m >>= fun r => .done r.1) := by
  unfold Parse.cJSONParse Parse.parseWithOpts
  cases Parse.skip m with
  | null => rfl
  | fault => rfl
  | done v =>
    simp only [Outcome.done_bind]
    cases Parse.parseValue p (3 * m.length + 3) v <;> rfl

def Reading (m : Bytes) (u : Item) : Prop :=
  Parse.cJSONParse p m = .done u.tree ∧ u.Owned ∧ u.size ≤ m.length

theorem parse_spec {m : Bytes} (hfuel : 3 * m.length + 3 ≤ fuel) (hmax : m.length ≤ INT_MAX)
    (hm : Parse.cJSONParse p m ≠ .fault) :
    Spec 0 (parse al fuel p (some m)) fun r cs =>
      Makes al (Reading p m) r cs ∨ Parse.cJSONParse p m = .null ∧ r = none ∧ cs = 0 := by
  rw [cJSONParse_eq] at hm
  have ho : Parse.parseWithOpts p false m ≠ .fault := by
    rintro h
    exact hm (by rw [h]; rfl)
  refine (parseWithOpts_beside fuel p false hfuel hmax ho).bind ?_
  rintro ((_ | ep) | x) cs hr
  · obtain ⟨hal,rfl⟩ := hr
    exact Spec.pure (Or.inl (Or.inl ⟨rfl,hal,rfl⟩))
  · obtain ⟨hnull,-,rfl⟩ := hr
    exact Spec.pure (Or.inr ⟨by rw [cJSONParse_eq,hnull]; rfl,rfl,rfl⟩)
  · obtain ⟨u,ha,hdone,-,hsize,hu,rfl⟩ := hr
    refine Spec.pure (Or.inl (Or.inr ⟨u,by rw [ha],⟨?_,hu,hsize⟩,rfl⟩))
    rw [cJSONParse_eq,hdone]
    rfl

end parse

end CJsonHeap

end WddProc
