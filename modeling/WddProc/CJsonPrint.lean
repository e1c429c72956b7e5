import WddProc.CJsonDuplicate

/-!
# Printing items on the heap

`cJSON_Print` asks for one block for every text and every table of texts, with sizes that it
computes beforehand, in `int`s. The text it returns is that of the tree, and as long as it has no
more than 10^9 bytes every block is large enough; without memory nothing is left behind.
-/

namespace WddProc
namespace CJsonHeap

open OwnedHeap

section model

variable (al : Allocator Addr Block) (fuel : ℕ) (p : Platform) (fmt : Bool)

/-- `cJSON_malloc(size)` for an `int`, and a string and its NUL written to the block. -/
def mallocText (size : ℤ) (m : Bytes) : Prog Ptr := do
  match ← Prog.malloc al (.text (CString.ofMem m)) with
  | none => pure none
  | some b => if (m.length : ℤ) < size % 2^64 then pure (some b) else Prog.fault

/-- The first loop of `print_string_ptr`. -/
def escapedLen : Bytes → ℕ
  | [] => 0
  | b :: m => (if b ∈ [34,92,8,12,10,13,9] then 2 else if b < 32 then 6 else 1) + escapedLen m

def printStringPtr : Ptr → Prog Ptr
  | none => strdup al (.outside (CString.lit ""))
  | some a => do
    let s ← readString (.block a)
    let size ← intOf (escapedLen s.bytes + 3)
    mallocText al size (34 :: (escape s.bytes ++ [34]))

/-- `entries[i++] = ret`. -/
def putEntry (entries : Addr) (ret : Ptr) : Prog Unit := do
  match ← Prog.load entries with
  | .pointers size ps =>
    if ps.length < size then Prog.store entries (.pointers size (ps ++ [ret])) else Prog.fault
  | _ => Prog.fault

def readEntries (entries : Addr) : Prog (List Ptr) := do
  match ← Prog.load entries with
  | .pointers _ ps => pure ps
  | _ => Prog.fault

def lengthOf : Ptr → Prog (Option ℕ)
  | none => pure none
  | some a => do
    let s ← readString (.block a)
    pure (some s.bytes.length)

/-- Retrieve all the results: the length they need and whether one of them failed. The sums are
computed in `size_t` and stored in an `int`. -/
def collectItems (printEntry : Ptr → Prog Ptr) (entries : Addr) : ℕ → Ptr → ℤ → Prog (ℤ × Bool)
  | 0, _, _ => Prog.fault
  | _+1, none, len => pure (len,false)
  | f+1, some child, len => do
    let ret ← printEntry (some child)
    putEntry entries ret
    match ← lengthOf ret with
    | none => pure (len,true)
    | some l =>
      let n ← readNode (some child)
      collectItems printEntry entries f n.next (toInt32 (len + (l + 2 + if fmt then 1 else 0 : ℕ)))

def freeEach : List Ptr → Prog Unit
  | [] => pure ()
  | p :: ps => do
    freeIf p
    freeEach ps

def readEach : List Ptr → Prog (List Bytes)
  | [] => pure []
  | none :: _ => Prog.fault
  | some a :: ps => do
    let s ← readString (.block a)
    let ms ← readEach ps
    pure (s.bytes :: ms)

def composeItems : List Bytes → Bytes
  | [] => []
  | m :: ms => m ++ (if ms.isEmpty then [] else 44 :: (if fmt then [32] else [])) ++ composeItems ms

def printArray (printEntry : ℕ → Ptr → Prog Ptr) (depth : ℕ) (child : Ptr) : Prog Ptr := do
  let count ← countItems fuel child
  let numentries ← intOf count
  if numentries = 0 then mallocText al 3 [91,93]
  else
    match ← Prog.malloc al (.pointers numentries []) with
    | none => pure none
    | some entries =>
      let inner ← intOf (depth + 1)
      let r ← collectItems fmt (printEntry inner) entries fuel child 5
      let ps ← readEntries entries
      let out ← (if r.2 then pure none else do
        let ms ← readEach ps
        mallocText al r.1 (91 :: (composeItems fmt ms ++ [93])))
      freeEach ps
      Prog.free entries
      pure out

/-- `if (str && ret) len += …; else fail = 1;` for the lengths of both. -/
def addMember (depth : ℕ) (len : ℤ × Bool) : Option ℕ → Option ℕ → ℤ × Bool
  | some k, some l => (toInt32 (len.1 + (l + k + 2 + if fmt then 2 + depth else 0 : ℕ)),len.2)
  | _, _ => (len.1,true)

/-- Collect all the results into the tables of names and entries. -/
def collectMembers (printEntry : Ptr → Prog Ptr) (depth : ℕ) (names entries : Addr) :
    ℕ → Ptr → ℤ × Bool → Prog (ℤ × Bool)
  | 0, _, _ => Prog.fault
  | _+1, none, len => pure len
  | f+1, some child, len => do
    let n ← readNode (some child)
    let str ← printStringPtr al n.string
    putEntry names str
    let ret ← printEntry (some child)
    putEntry entries ret
    let l ← lengthOf ret
    let k ← lengthOf str
    let m ← readNode (some child)
    collectMembers printEntry depth names entries f m.next (addMember fmt depth len k l)

def composeMembers (depth : ℕ) : List Bytes → List Bytes → Bytes
  | k :: ks, m :: ms => CJson.tabs fmt depth ++ k ++ 58 :: (if fmt then [9] else []) ++ m ++
      (if ms.isEmpty then [] else [44]) ++ CJson.newline fmt ++ composeMembers depth ks ms
  | _, _ => []

def printObject (printEntry : ℕ → Ptr → Prog Ptr) (depth : ℕ) (child : Ptr) : Prog Ptr := do
  let count ← countItems fuel child
  let numentries ← intOf count
  if numentries = 0 then do
    let size ← intOf (if fmt then depth + 4 else 3)
    mallocText al size (123 :: (CJson.newline fmt ++ CJson.tabs fmt (depth - 1) ++ [125]))
  else
    match ← Prog.malloc al (.pointers numentries []) with
    | none => pure none
    | some entries =>
      match ← Prog.malloc al (.pointers numentries []) with
      | none => do
        Prog.free entries
        pure none
      | some names =>
        let inner ← intOf (depth + 1)
        let len ← intOf (7 + if fmt then inner else 0)
        let r ← collectMembers al fmt (printEntry inner) inner names entries fuel child (len,false)
        let ns ← readEntries names
        let es ← readEntries entries
        let out ← (if r.2 then pure none else do
          let ks ← readEach ns
          let ms ← readEach es
          mallocText al r.1 (123 :: (CJson.newline fmt ++ composeMembers fmt inner ks ms ++
            CJson.tabs fmt depth ++ [125])))
        freeEach ns
        freeEach es
        Prog.free names
        Prog.free entries
        pure out

def printValue : ℕ → ℕ → Ptr → Prog Ptr
  | 0, _, _ => Prog.fault
  | _+1, _, none => pure none
  | f+1, depth, some item => do
    let n ← readNode (some item)
    match n.type with
    | .null => strdup al (.outside (CString.lit "null"))
    | .false => strdup al (.outside (CString.lit "false"))
    | .true => strdup al (.outside (CString.lit "true"))
    | .number => strdup al (.outside (p.numberText n.valueint n.valuedouble))
    | .string => printStringPtr al n.valuestring
    | .array => printArray al fuel fmt (printValue f) depth n.child
    | .object => printObject al fuel fmt (printValue f) depth n.child

def print (item : Ptr) : Prog Ptr := printValue al fuel p true fuel 0 item

def printUnformatted (item : Ptr) : Prog Ptr := printValue al fuel p false fuel 0 item

end model

section printing

variable {al : Allocator Addr Block} {fuel : ℕ} {p : Platform} {fmt : Bool}

variable (al) in
/-- A new text, or NULL for want of memory. -/
def Prints (s : CString) (r : Ptr) (cs : Cells) : Prop :=
  ∃ t, Copies al s t ∧ r = textPtr t ∧ cs = textCells t

theorem strdup_prints (s : CString) (pre : Cells) :
    Spec pre (strdup al (.outside s)) fun r cs => ∃ own, cs = own + pre ∧ Prints al s r own := by
  refine Spec.last (strdup_spec al (show CharPtr.Reads s (.outside s) 0 from ⟨rfl,rfl⟩)
    (zero_add _).symm fun t ht => ?_)
  exact Spec.pure ⟨textCells t,rfl,t,ht,rfl,rfl⟩

theorem mallocText_spec {size : ℕ} {m : Bytes} (hm : m.length < size) (hsize : size ≤ INT_MAX)
    (pre : Cells) :
    Spec pre (mallocText al size m) fun r cs =>
      ∃ own, cs = own + pre ∧ Prints al (CString.ofMem m) r own := by
  refine Spec.malloc (fun ht => Spec.pure ⟨0,(zero_add _).symm,none,Or.inl ⟨rfl,ht⟩,rfl,rfl⟩) fun b => ?_
  change Spec _ (if (m.length : ℤ) < (size : ℤ) % 2^64 then pure (some b) else Prog.fault) _
  rw [if_pos (by unfold INT_MAX at hsize; omega)]
  exact Spec.pure ⟨_,rfl,some (b,CString.ofMem m),Or.inr ⟨b,rfl⟩,rfl,rfl⟩

theorem escapeByte_length (b : UInt8) : (escapeByte b).length =
    if b ∈ [34,92,8,12,10,13,9] then 2 else if b < 32 then 6 else 1 := by
  by_cases hb : b ∈ [(34 : UInt8),92,8,12,10,13,9]
  · rw [if_pos hb]
    simp only [List.mem_cons,List.not_mem_nil,or_false] at hb
    rcases hb with rfl | rfl | rfl | rfl | rfl | rfl | rfl <;> decide
  · rw [if_neg hb]
    simp only [List.mem_cons,List.not_mem_nil,or_false,not_or] at hb
    unfold escapeByte
    by_cases hlt : b < 32
    · have hle : ¬ 31 < b := by
        rw [UInt8.lt_iff_toNat_lt] at *
        simp at *
        omega
      simp [hb,hlt,hle]
    · have hgt : 31 < b := by
        rw [UInt8.lt_iff_toNat_lt] at *
        simp at *
        omega
      simp [hb,hlt,hgt]

theorem escapedLen_eq (m : Bytes) : escapedLen m = (escape m).length := by
  induction m with
  | nil => rfl
  | cons b m ih =>
    rw [escapedLen,← escapeByte_length,ih,escape,escape,List.flatMap_cons,List.length_append]

theorem printStringPtr_spec (t : Option Text) (hmax : (WddProc.printStringPtr (t.map Prod.snd)).length < INT_MAX)
    {pre cs : Cells} (hpre : pre = textCells t + cs) :
    Spec pre (printStringPtr al (textPtr t)) fun r cs' => ∃ own, cs' = own + pre ∧
      Prints al (CString.ofMem (WddProc.printStringPtr (t.map Prod.snd))) r own := by
  cases t with
  | none => exact strdup_prints (CString.lit "") pre
  | some x =>
    have hlen : escapedLen x.2.bytes + 3 ≤ INT_MAX := by
      simp only [Option.map_some,WddProc.printStringPtr,List.length_cons,List.length_append,List.length_nil] at hmax
      rw [escapedLen_eq]
      omega
    refine readString_block hpre (intOf_spec hlen ?_)
    exact mallocText_spec (by simp [escapedLen_eq]) hlen pre

theorem putEntry_spec {α : Type} {e : Addr} {size : ℕ} {ps : List Ptr} {pre cs : Cells} {r : Ptr}
    {k : Unit → Prog α} {goal : α → Cells → Prop} (hpre : pre = cell e (.pointers size ps) + cs)
    (hsize : ps.length < size) (hk : Spec (cell e (.pointers size (ps ++ [r])) + cs) (k ()) goal) :
    Spec pre (putEntry e r >>= k) goal := by
  unfold putEntry
  rw [bind_assoc]
  refine Spec.load hpre ?_
  simp only [if_pos hsize]
  exact Spec.store hpre hk

theorem readEntries_spec {α : Type} {e : Addr} {size : ℕ} {ps : List Ptr} {pre cs : Cells}
    {k : List Ptr → Prog α} {goal : α → Cells → Prop} (hpre : pre = cell e (.pointers size ps) + cs)
    (hk : Spec pre (k ps) goal) : Spec pre (readEntries e >>= k) goal := by
  unfold readEntries
  rw [bind_assoc]
  exact Spec.load hpre (by simpa using hk)

theorem lengthOf_spec {α : Type} (t : Option Text) {pre cs : Cells} {k : Option ℕ → Prog α}
    {goal : α → Cells → Prop} (hpre : pre = textCells t + cs)
    (hk : Spec pre (k (t.map fun x => x.2.bytes.length)) goal) :
    Spec pre (lengthOf (textPtr t) >>= k) goal := by
  cases t with
  | none => simpa [lengthOf,textPtr] using hk
  | some x =>
    change Spec pre ((readString (.block x.1) >>= fun s => pure (some s.bytes.length)) >>= k) goal
    rw [bind_assoc]
    exact readString_block hpre (by simpa using hk)

def allTexts (es : List (Option Text)) : Cells := (es.map textCells).sum

theorem freeEach_spec {α : Type} (es : List (Option Text)) {pre cs : Cells} {k : Unit → Prog α}
    {goal : α → Cells → Prop} (hpre : pre = allTexts es + cs) (hk : Spec cs (k ()) goal) :
    Spec pre (freeEach (es.map textPtr) >>= k) goal := by
  induction es generalizing pre with
  | nil =>
    obtain rfl : pre = cs := by simpa [allTexts] using hpre
    simpa [freeEach] using hk
  | cons t es ih =>
    rw [List.map_cons,freeEach,bind_assoc]
    refine freeIf_spec t (show _ = _ + (allTexts es + cs) by
      rw [hpre,allTexts,allTexts,List.map_cons,List.sum_cons,add_assoc]) ?_
    exact ih rfl

theorem readEach_spec {α : Type} (ts : List Text) {pre cs : Cells} {k : List Bytes → Prog α}
    {goal : α → Cells → Prop} (hpre : pre = allTexts (ts.map some) + cs)
    (hk : Spec pre (k (ts.map fun x => x.2.bytes)) goal) :
    Spec pre (readEach ((ts.map some).map textPtr) >>= k) goal := by
  induction ts generalizing cs k with
  | nil => simpa [readEach] using hk
  | cons x ts ih =>
    rw [List.map_cons,List.map_cons]
    change Spec pre ((readString (.block x.1) >>= fun s => readEach ((ts.map some).map textPtr) >>=
      fun ms => pure (s.bytes :: ms)) >>= k) goal
    rw [bind_assoc]
    have hcells : allTexts ((x :: ts).map some) = cell x.1 (.text x.2) + allTexts (ts.map some) := by
      rw [allTexts,allTexts,List.map_cons,List.map_cons,List.sum_cons,textCells]
    refine readString_block (show _ = _ + (allTexts (ts.map some) + cs) by
      rw [hpre,hcells,add_assoc]) ?_
    rw [bind_assoc]
    refine ih (show _ = _ + (cell x.1 (.text x.2) + cs) by rw [hpre,hcells]; abel) ?_
    simpa using hk

theorem allTexts_append (es : List (Option Text)) (t : Option Text) :
    allTexts (es ++ [t]) = allTexts es + textCells t := by
  simp [allTexts]

def PrintsEach (al : Allocator Addr Block) (printEntry : Ptr → Prog Ptr) (text : Item → CString)
    (ts : List Item) : Prop :=
  ∀ c ∈ ts, ∀ prev next, Spec (c.cells prev next) (printEntry (some c.addr)) fun r cs =>
    ∃ own, cs = own + c.cells prev next ∧ Prints al (text c) r own

/-- The printer is safe for texts of this many bytes, the depth counted in. -/
def PRINT_MAX : ℕ := 10^9

def itemsLen (fmt : Bool) (text : Item → CString) (ts : List Item) : ℕ :=
  (ts.map fun c => (text c).bytes.length + 2 + if fmt then 1 else 0).sum

def Collected (text : Item → CString) (ts : List Item) (xs : List Text) : Prop :=
  xs.map Prod.snd = ts.map text

theorem Collected.bytes {text : Item → CString} {ts : List Item} {xs : List Text}
    (h : Collected text ts xs) : (xs.map fun x => x.2.bytes) = ts.map fun t => (text t).bytes := by
  have hmap := congrArg (List.map CString.bytes) h
  simpa [Function.comp_def] using hmap

theorem collectItems_spec {printEntry : Ptr → Prog Ptr} {text : Item → CString} (ts : List Item)
    (hprint : PrintsEach al printEntry text ts) {f : ℕ} (hf : ts.length < f) (e : Addr) (size : ℕ)
    (es : List (Option Text)) (hsize : es.length + ts.length ≤ size) (prev : Ptr) (len : ℕ)
    (hmax : len + itemsLen fmt text ts ≤ INT_MAX) :
    Spec (cell e (.pointers size (es.map textPtr)) + allTexts es + chain prev none ts)
      (collectItems fmt printEntry e f (headPtr none ts) len)
      fun r cs => ∃ es', cs = cell e (.pointers size (es'.map textPtr)) + allTexts es' + chain prev none ts ∧
        (r.2 = true ∧ ¬ al.Total ∨ ∃ xs, r = (((len + itemsLen fmt text ts : ℕ) : ℤ),false) ∧
          Collected text ts xs ∧ es' = es ++ xs.map some) := by
  induction ts generalizing f es prev len with
  | nil =>
    obtain ⟨f,rfl⟩ := Nat.exists_eq_succ_of_ne_zero (Nat.ne_of_gt hf)
    exact Spec.pure ⟨es,rfl,Or.inr ⟨[],rfl,rfl,(List.append_nil es).symm⟩⟩
  | cons c ts ih =>
    obtain ⟨f,rfl⟩ := Nat.exists_eq_succ_of_ne_zero (Nat.ne_of_gt (Nat.zero_lt_of_lt hf))
    rw [List.length_cons] at hf hsize
    set nx := headPtr none ts with hnx
    have hchain : chain prev none (c :: ts) = c.cells prev nx + chain (some c.addr) none ts :=
      chain_cons prev none c ts
    rw [headPtr_cons,collectItems]
    refine Spec.call (hprint c List.mem_cons_self prev nx) (show _ = _ + (
      cell e (.pointers size (es.map textPtr)) + allTexts es + chain (some c.addr) none ts) by
        rw [hchain]; abel) ?_
    rintro _ _ ⟨_,rfl,t,ht,rfl,rfl⟩
    refine putEntry_spec (show _ = _ + (textCells t + c.cells prev nx + (allTexts es +
      chain (some c.addr) none ts)) by abel) (by rw [List.length_map]; omega) ?_
    refine lengthOf_spec t (show _ = _ + (cell e (.pointers size (es.map textPtr ++ [textPtr t])) +
      c.cells prev nx + (allTexts es + chain (some c.addr) none ts)) by abel) ?_
    have hes : es.map textPtr ++ [textPtr t] = (es ++ [t]).map textPtr := by simp
    rw [hes]
    rcases ht with ⟨rfl,hal⟩ | ⟨b,rfl⟩
    · refine Spec.pure ⟨es ++ [none],?_,Or.inl ⟨rfl,hal⟩⟩
      rw [allTexts_append,hchain]
      abel
    · have hnode : c.cells prev nx = cell c.addr (.node (c.node prev nx)) + c.owned := rfl
      refine readNode_spec (show _ = _ + (c.owned + textCells (some (b,text c)) +
        cell e (.pointers size ((es ++ [some (b,text c)]).map textPtr)) + (allTexts es +
          chain (some c.addr) none ts)) by rw [hnode]; abel) ?_
      rw [itemsLen,List.map_cons,List.sum_cons,← Nat.add_assoc] at hmax
      rw [Item.node_next]
      change Spec _ (collectItems fmt printEntry e f nx (toInt32 ((len : ℤ) +
        ((text c).bytes.length + 2 + if fmt then 1 else 0 : ℕ)))) _
      rw [← Nat.cast_add,toInt32_small (by unfold INT_MAX at hmax; omega)]
      refine Spec.tail (ih (fun d hd => hprint d (List.mem_cons_of_mem c hd)) (by omega)
        (es ++ [some (b,text c)]) (by rw [List.length_append,List.length_singleton]; omega)
        (some c.addr) _ hmax) (show _ = _ + c.cells prev nx by rw [allTexts_append]; abel) ?_
      rintro r _ ⟨es',rfl,hr⟩
      refine ⟨es',by rw [hchain]; abel,?_⟩
      rcases hr with hr | ⟨xs,rfl,hxs,rfl⟩
      · exact Or.inl hr
      · refine Or.inr ⟨(b,text c) :: xs,?_,?_,by simp⟩
        · simp only [itemsLen,List.map_cons,List.sum_cons]
          rw [Nat.add_assoc]
        · rw [Collected,List.map_cons,List.map_cons,hxs]

theorem composeItems_eq (p : Platform) (depth : ℕ) (ts : List Item) :
    composeItems fmt (ts.map fun t => CJson.printValue p fmt depth t.tree) =
      CJson.printItems p fmt depth (trees ts) := by
  induction ts with
  | nil => rfl
  | cons t ts ih =>
    rw [List.map_cons,composeItems,trees,CJson.printItems,ih]
    cases ts <;> rfl

/-- What the loop adds for an array is what it writes, and for each entry and the last separator
a byte more. -/
theorem itemsLen_eq (fmt : Bool) (text : Item → CString) {ts : List Item} (hts : ts ≠ []) :
    itemsLen fmt text ts = (composeItems fmt (ts.map fun t => (text t).bytes)).length + ts.length + 1 +
      if fmt then 1 else 0 := by
  induction ts with
  | nil => exact absurd rfl hts
  | cons t ts ih =>
    rw [itemsLen,List.map_cons,List.map_cons,List.sum_cons,composeItems]
    cases ts with
    | nil => simp [composeItems]
    | cons u ts =>
      rw [← itemsLen,ih (List.cons_ne_nil u ts)]
      cases fmt <;> simp <;> omega

theorem length_le_composeItems (fmt : Bool) (text : Item → CString) (ts : List Item) :
    ts.length ≤ (composeItems fmt (ts.map fun t => (text t).bytes)).length + 1 := by
  induction ts with
  | nil => exact Nat.zero_le _
  | cons t ts ih =>
    rw [List.map_cons,composeItems]
    cases ts with
    | nil => simp
    | cons u ts =>
      simp only [List.length_append,List.length_cons,List.map_cons,List.isEmpty_cons,
        Bool.false_eq_true,if_false] at ih ⊢
      omega

theorem mem_composeItems (fmt : Bool) (text : Item → CString) {c : Item} {ts : List Item} (hc : c ∈ ts) :
    (text c).bytes.length ≤ (composeItems fmt (ts.map fun t => (text t).bytes)).length := by
  induction ts with
  | nil => cases hc
  | cons t ts ih =>
    rw [List.map_cons,composeItems,List.length_append,List.length_append]
    rcases List.mem_cons.mp hc with rfl | hc
    · omega
    · exact (ih hc).trans (Nat.le_add_left _ _)

theorem printArray_spec {printEntry : ℕ → Ptr → Prog Ptr} {text : Item → CString} (depth : ℕ)
    (ts : List Item) (hprint : PrintsEach al (printEntry (depth + 1)) text ts) (hf : ts.length < fuel)
    (hmax : depth + (composeItems fmt (ts.map fun t => (text t).bytes)).length + 2 ≤ PRINT_MAX) :
    Spec (chain none none ts) (printArray al fuel fmt printEntry depth (headPtr none ts))
      fun r cs => ∃ own, cs = own + chain none none ts ∧ Prints al (CString.ofMem (91 ::
        (composeItems fmt (ts.map fun t => (text t).bytes) ++ [93]))) r own := by
  have hcount := length_le_composeItems fmt text ts
  unfold PRINT_MAX at hmax
  refine (countItems_spec hf none).bind ?_
  rintro _ _ ⟨rfl,rfl⟩
  refine intOf_spec (by unfold INT_MAX; omega) ?_
  by_cases hts : ts = []
  · subst hts
    exact mallocText_spec (show 2 < 3 by decide) (by decide) _
  have hlen := itemsLen_eq fmt text hts
  have hfmt : (if fmt then 1 else 0) ≤ 1 := by split <;> omega
  have hint : 5 + itemsLen fmt text ts ≤ INT_MAX := by
    unfold INT_MAX
    omega
  rw [if_neg (by simpa using hts)]
  refine Spec.malloc (fun hal => Spec.pure ⟨0,(zero_add _).symm,none,Or.inl ⟨rfl,hal⟩,rfl,rfl⟩)
    fun e => ?_
  refine intOf_spec (by unfold INT_MAX; omega) ?_
  have hcollect : Spec _ (collectItems fmt (printEntry (depth + 1)) e fuel (headPtr none ts) (5 : ℕ)) _ :=
    collectItems_spec ts hprint hf e ts.length [] (by simp) none 5 hint
  refine Spec.call hcollect (show _ = _ + 0 by simp [allTexts]) ?_
  rintro r _ ⟨es,rfl,hr⟩
  rw [add_zero]
  refine readEntries_spec (add_assoc _ _ _) ?_
  set pre := cell e (.pointers ts.length (es.map textPtr)) + allTexts es + chain none none ts with hpre
  have hout : Spec pre (if r.2 then pure none else do
        let ms ← readEach (es.map textPtr)
        mallocText al r.1 (91 :: (composeItems fmt ms ++ [93])))
      fun q cs => ∃ own, cs = own + pre ∧ Prints al (CString.ofMem (91 ::
        (composeItems fmt (ts.map fun t => (text t).bytes) ++ [93]))) q own := by
    rcases hr with ⟨hr,hal⟩ | ⟨xs,rfl,hxs,rfl⟩
    · rw [if_pos hr]
      exact Spec.pure ⟨0,(zero_add _).symm,none,Or.inl ⟨rfl,hal⟩,rfl,rfl⟩
    · rw [if_neg Bool.false_ne_true,List.nil_append]
      refine readEach_spec xs (show _ = _ + (cell e (.pointers ts.length ((xs.map some).map textPtr)) +
        chain none none ts) by rw [hpre,List.nil_append]; abel) ?_
      rw [hxs.bytes]
      exact mallocText_spec (by simp only [List.length_cons,List.length_append,List.length_nil]; omega)
        hint _
  refine hout.bind ?_
  rintro q _ ⟨own,rfl,hq⟩
  refine freeEach_spec es (show _ = _ + (cell e (.pointers ts.length (es.map textPtr)) + (own +
    chain none none ts)) by rw [hpre]; abel) ?_
  exact Spec.free rfl (Spec.pure ⟨own,rfl,hq⟩)

def nameText (c : Item) : CString := CString.ofMem (WddProc.printStringPtr c.tree.string)

theorem nameText_bytes (c : Item) : (nameText c).bytes = WddProc.printStringPtr c.tree.string :=
  cstr_of_nulFree (zero_notMem_printStringPtr _)

def membersLen (fmt : Bool) (depth : ℕ) (text : Item → CString) (ts : List Item) : ℕ :=
  (ts.map fun c => (text c).bytes.length + (nameText c).bytes.length + 2 +
    if fmt then 2 + depth else 0).sum

def tables (names entries : Addr) (size : ℕ) (ns es : List (Option Text)) : Cells :=
  cell names (.pointers size (ns.map textPtr)) + allTexts ns +
    (cell entries (.pointers size (es.map textPtr)) + allTexts es)

theorem Item.tree_string (c : Item) : c.tree.string = c.string.map Prod.snd := by
  cases c <;> rfl

theorem name_spec (c : Item) (hmax : (nameText c).bytes.length < INT_MAX) (prev next : Ptr) :
    Spec (c.cells prev next) (printStringPtr al (textPtr c.string)) fun r cs =>
      ∃ own, cs = own + c.cells prev next ∧ Prints al (nameText c) r own := by
  rw [nameText_bytes,c.tree_string] at hmax
  rw [nameText,c.tree_string]
  exact printStringPtr_spec c.string hmax (show _ = _ + (cell c.addr (.node (c.node prev next)) +
    (c.named none).owned) by rw [c.cells_eq_named]; abel)

/-- One round stores the texts of the name and of the entry, and goes on behind the item. -/
theorem collectMembers_round {printEntry : Ptr → Prog Ptr} {text : Item → CString} {depth : ℕ} {c : Item}
    {ts : List Item} (hprint : PrintsEach al printEntry text (c :: ts))
    (hname : (nameText c).bytes.length < INT_MAX) {names entries : Addr} {size : ℕ}
    {ns es : List (Option Text)} (hns : ns.length < size) (hes : es.length < size) {prev : Ptr}
    {acc : ℤ × Bool} {f : ℕ} {goal : ℤ × Bool → Cells → Prop}
    (hgo : ∀ k t, Copies al (nameText c) k → Copies al (text c) t →
      Spec (tables names entries size (ns ++ [k]) (es ++ [t]) + chain (some c.addr) none ts +
          c.cells prev (headPtr none ts))
        (collectMembers al fmt printEntry depth names entries f (headPtr none ts)
          (addMember fmt depth acc (k.map fun x => x.2.bytes.length) (t.map fun x => x.2.bytes.length)))
        goal) :
    Spec (tables names entries size ns es + chain prev none (c :: ts))
      (collectMembers al fmt printEntry depth names entries (f + 1) (some c.addr) acc) goal := by
  set nx := headPtr none ts with hnx
  have hchain : chain prev none (c :: ts) = c.cells prev nx + chain (some c.addr) none ts :=
    chain_cons prev none c ts
  have hnode : c.cells prev nx = cell c.addr (.node (c.node prev nx)) + c.owned := rfl
  rw [collectMembers]
  refine readNode_spec (show _ = _ + (c.owned + tables names entries size ns es +
    chain (some c.addr) none ts) by rw [hchain,hnode]; abel) ?_
  rw [Item.node_string]
  refine Spec.call (name_spec c hname prev nx) (show _ = _ + (tables names entries size ns es +
    chain (some c.addr) none ts) by rw [hchain]; abel) ?_
  rintro _ _ ⟨_,rfl,k,hk,rfl,rfl⟩
  refine putEntry_spec (show _ = _ + (textCells k + c.cells prev nx + allTexts ns +
    (cell entries (.pointers size (es.map textPtr)) + allTexts es) + chain (some c.addr) none ts) by
      rw [tables]; abel) (by rwa [List.length_map]) ?_
  refine Spec.call (hprint c List.mem_cons_self prev nx) (show _ = _ + (
    cell names (.pointers size (ns.map textPtr ++ [textPtr k])) + textCells k + allTexts ns +
      (cell entries (.pointers size (es.map textPtr)) + allTexts es) + chain (some c.addr) none ts) by
        abel) ?_
  rintro _ _ ⟨_,rfl,t,ht,rfl,rfl⟩
  refine putEntry_spec (show _ = _ + (textCells t + c.cells prev nx +
    (cell names (.pointers size (ns.map textPtr ++ [textPtr k])) + textCells k + allTexts ns +
      allTexts es + chain (some c.addr) none ts)) by abel) (by rwa [List.length_map]) ?_
  have hns' : ns.map textPtr ++ [textPtr k] = (ns ++ [k]).map textPtr := by simp
  have hes' : es.map textPtr ++ [textPtr t] = (es ++ [t]).map textPtr := by simp
  rw [hns',hes']
  have hpre : cell entries (.pointers size ((es ++ [t]).map textPtr)) + (textCells t + c.cells prev nx +
      (cell names (.pointers size ((ns ++ [k]).map textPtr)) + textCells k + allTexts ns + allTexts es +
        chain (some c.addr) none ts)) = tables names entries size (ns ++ [k]) (es ++ [t]) +
          chain (some c.addr) none ts + c.cells prev nx := by
    rw [tables,allTexts_append,allTexts_append]
    abel
  rw [hpre]
  refine lengthOf_spec t (show _ = _ + (cell entries (.pointers size ((es ++ [t]).map textPtr)) +
    (c.cells prev nx + (cell names (.pointers size ((ns ++ [k]).map textPtr)) + textCells k +
      allTexts ns + allTexts es + chain (some c.addr) none ts))) by rw [← hpre]; abel) ?_
  refine lengthOf_spec k (show _ = _ + (cell entries (.pointers size ((es ++ [t]).map textPtr)) +
    (textCells t + c.cells prev nx + (cell names (.pointers size ((ns ++ [k]).map textPtr)) +
      allTexts ns + allTexts es + chain (some c.addr) none ts))) by rw [← hpre]; abel) ?_
  refine readNode_spec (show _ = _ + (c.owned + (tables names entries size (ns ++ [k]) (es ++ [t]) +
    chain (some c.addr) none ts)) by rw [hnode]; abel) ?_
  rw [Item.node_next]
  exact hgo k t hk ht

theorem collectMembers_spec {printEntry : Ptr → Prog Ptr} {text : Item → CString} (depth : ℕ)
    (ts : List Item) (hprint : PrintsEach al printEntry text ts)
    (hnames : ∀ c ∈ ts, (nameText c).bytes.length < INT_MAX) {f : ℕ} (hf : ts.length < f)
    (names entries : Addr) (size : ℕ) (ns es : List (Option Text)) (hns : ns.length + ts.length ≤ size)
    (hes : es.length + ts.length ≤ size) (prev : Ptr) (len : ℕ) (fail : Bool)
    (hmax : len + membersLen fmt depth text ts ≤ INT_MAX) (hfail : fail = true → ¬ al.Total) :
    Spec (tables names entries size ns es + chain prev none ts)
      (collectMembers al fmt printEntry depth names entries f (headPtr none ts) (len,fail))
      fun r cs => ∃ ns' es', cs = tables names entries size ns' es' + chain prev none ts ∧
        (r.2 = true ∧ ¬ al.Total ∨ ∃ ks xs, fail = false ∧
          r = (((len + membersLen fmt depth text ts : ℕ) : ℤ),false) ∧ Collected nameText ts ks ∧
            Collected text ts xs ∧ ns' = ns ++ ks.map some ∧ es' = es ++ xs.map some) := by
  induction ts generalizing f ns es prev len fail with
  | nil =>
    obtain ⟨f,rfl⟩ := Nat.exists_eq_succ_of_ne_zero (Nat.ne_of_gt hf)
    refine Spec.pure ⟨ns,es,rfl,?_⟩
    cases fail with
    | true => exact Or.inl ⟨rfl,hfail rfl⟩
    | false => exact Or.inr ⟨[],[],rfl,rfl,rfl,rfl,(List.append_nil ns).symm,(List.append_nil es).symm⟩
  | cons c ts ih =>
    obtain ⟨f,rfl⟩ := Nat.exists_eq_succ_of_ne_zero (Nat.ne_of_gt (Nat.zero_lt_of_lt hf))
    rw [List.length_cons] at hf hns hes
    have hchain : chain prev none (c :: ts) = c.cells prev (headPtr none ts) + chain (some c.addr) none ts :=
      chain_cons prev none c ts
    rw [membersLen,List.map_cons,List.sum_cons,← Nat.add_assoc] at hmax
    set more := (text c).bytes.length + (nameText c).bytes.length + 2 + (if fmt then 2 + depth else 0)
      with hmore
    rw [headPtr_cons]
    refine collectMembers_round hprint (hnames c List.mem_cons_self) (by omega) (by omega) fun k t hk ht => ?_
    have hrest {len' : ℕ} {fail' : Bool} (hlen : len' ≤ len + more) (hfail' : fail' = true → ¬ al.Total) :=
      ih (fun d hd => hprint d (List.mem_cons_of_mem c hd)) (fun d hd => hnames d (List.mem_cons_of_mem c hd))
        (Nat.lt_of_succ_lt_succ hf) (ns ++ [k]) (es ++ [t])
        (by rw [List.length_append,List.length_singleton]; omega)
        (by rw [List.length_append,List.length_singleton]; omega) (some c.addr) len' fail'
        ((Nat.add_le_add_right hlen _).trans hmax) hfail'
    by_cases hboth : ∃ a b, k = some (a,nameText c) ∧ t = some (b,text c)
    · obtain ⟨a,b,rfl,rfl⟩ := hboth
      change Spec _ (collectMembers al fmt printEntry depth names entries f (headPtr none ts)
        (toInt32 ((len : ℤ) + (more : ℕ)),fail)) _
      rw [← Nat.cast_add,toInt32_small (by unfold INT_MAX at hmax; omega)]
      refine Spec.tail (hrest (le_refl _) hfail) rfl ?_
      rintro r _ ⟨ns',es',rfl,hr⟩
      refine ⟨ns',es',by rw [hchain]; abel,?_⟩
      rcases hr with hr | ⟨ks,xs,hfalse,rfl,hks,hxs,rfl,rfl⟩
      · exact Or.inl hr
      · refine Or.inr ⟨(a,nameText c) :: ks,(b,text c) :: xs,hfalse,?_,?_,?_,by simp,by simp⟩
        · simp only [membersLen,List.map_cons,List.sum_cons]
          rw [hmore,Nat.add_assoc]
        · rw [Collected,List.map_cons,List.map_cons,hks]
        · rw [Collected,List.map_cons,List.map_cons,hxs]
    · -- one of the two texts could not be made
      have hfailed : addMember fmt depth ((len : ℤ),fail) (k.map fun x => x.2.bytes.length)
          (t.map fun x => x.2.bytes.length) = ((len : ℤ),true) ∧ ¬ al.Total := by
        rcases hk with ⟨rfl,hal⟩ | ⟨a,rfl⟩
        · exact ⟨rfl,hal⟩
        · rcases ht with ⟨rfl,hal⟩ | ⟨b,rfl⟩
          · exact ⟨rfl,hal⟩
          · exact absurd ⟨a,b,rfl,rfl⟩ hboth
      rw [hfailed.1]
      refine Spec.tail (hrest (Nat.le_add_right _ _) fun _ => hfailed.2) rfl ?_
      rintro r _ ⟨ns',es',rfl,hr⟩
      refine ⟨ns',es',by rw [hchain]; abel,?_⟩
      rcases hr with hr | ⟨ks,xs,hfalse,-⟩
      · exact Or.inl hr
      · cases hfalse

theorem composeMembers_eq (p : Platform) (depth : ℕ) (ts : List Item) :
    composeMembers fmt depth (ts.map fun t => WddProc.printStringPtr t.tree.string)
      (ts.map fun t => CJson.printValue p fmt depth t.tree) = CJson.printMembers p fmt depth (trees ts) := by
  induction ts with
  | nil => rfl
  | cons t ts ih =>
    rw [List.map_cons,List.map_cons,composeMembers,trees,CJson.printMembers,ih]
    cases ts <;> simp [trees]

theorem membersLen_eq (fmt : Bool) (depth : ℕ) (text : Item → CString) {ts : List Item} (hts : ts ≠ []) :
    membersLen fmt depth text ts = (composeMembers fmt depth (ts.map fun t => (nameText t).bytes)
      (ts.map fun t => (text t).bytes)).length + 1 := by
  induction ts with
  | nil => exact absurd rfl hts
  | cons t ts ih =>
    rw [membersLen,List.map_cons,List.map_cons,List.map_cons,List.sum_cons,composeMembers]
    cases ts with
    | nil => cases fmt <;> simp [composeMembers,CJson.tabs,CJson.newline] <;> omega
    | cons u ts =>
      rw [← membersLen,ih (List.cons_ne_nil u ts)]
      cases fmt <;> simp [CJson.tabs,CJson.newline] <;> omega

theorem length_le_composeMembers (fmt : Bool) (depth : ℕ) (text : Item → CString) (ts : List Item) :
    ts.length ≤ (composeMembers fmt depth (ts.map fun t => (nameText t).bytes)
      (ts.map fun t => (text t).bytes)).length := by
  induction ts with
  | nil => exact Nat.zero_le _
  | cons t ts ih =>
    rw [List.map_cons,List.map_cons,composeMembers]
    simp only [List.length_append,List.length_cons]
    omega

theorem mem_composeMembers (fmt : Bool) (depth : ℕ) (text : Item → CString) {c : Item} {ts : List Item}
    (hc : c ∈ ts) : (nameText c).bytes.length + (text c).bytes.length ≤
      (composeMembers fmt depth (ts.map fun t => (nameText t).bytes)
        (ts.map fun t => (text t).bytes)).length := by
  induction ts with
  | nil => cases hc
  | cons t ts ih =>
    rw [List.map_cons,List.map_cons,composeMembers]
    simp only [List.length_append,List.length_cons]
    rcases List.mem_cons.mp hc with rfl | hc
    · omega
    · exact (ih hc).trans (Nat.le_add_left _ _)

theorem printObject_spec {printEntry : ℕ → Ptr → Prog Ptr} {text : Item → CString} (depth : ℕ)
    (ts : List Item) (hprint : PrintsEach al (printEntry (depth + 1)) text ts) (hf : ts.length < fuel)
    (hmax : depth + (composeMembers fmt (depth + 1) (ts.map fun t => (nameText t).bytes)
      (ts.map fun t => (text t).bytes)).length + 2 ≤ PRINT_MAX) :
    Spec (chain none none ts) (printObject al fuel fmt printEntry depth (headPtr none ts))
      fun r cs => ∃ own, cs = own + chain none none ts ∧ Prints al (CString.ofMem (
        if ts = [] then 123 :: (CJson.newline fmt ++ CJson.tabs fmt (depth - 1) ++ [125])
        else 123 :: (CJson.newline fmt ++ composeMembers fmt (depth + 1)
          (ts.map fun t => (nameText t).bytes) (ts.map fun t => (text t).bytes) ++
            CJson.tabs fmt depth ++ [125]))) r own := by
  have hnone {pre : Cells} (hal : ¬ al.Total) {s : CString} :
      ∃ own, pre = own + pre ∧ Prints al s none own :=
    ⟨0,(zero_add _).symm,none,Or.inl ⟨rfl,hal⟩,rfl,rfl⟩
  have hcount := length_le_composeMembers fmt (depth + 1) text ts
  unfold PRINT_MAX at hmax
  refine (countItems_spec hf none).bind ?_
  rintro _ _ ⟨rfl,rfl⟩
  refine intOf_spec (by unfold INT_MAX; omega) ?_
  by_cases hts : ts = []
  · subst hts
    have hsize : (if fmt then depth + 4 else 3) ≤ INT_MAX := by
      unfold INT_MAX
      split <;> omega
    refine intOf_spec hsize (mallocText_spec ?_ hsize _)
    cases fmt <;> simp [CJson.tabs,CJson.newline]
  have hlen := membersLen_eq fmt (depth + 1) text hts
  have hnames : ∀ c ∈ ts, (nameText c).bytes.length < INT_MAX := by
    intro c hc
    have h := mem_composeMembers fmt (depth + 1) text hc
    unfold INT_MAX
    omega
  have hinner : (7 + if fmt then depth + 1 else 0) + membersLen fmt (depth + 1) text ts ≤ INT_MAX := by
    unfold INT_MAX
    split <;> omega
  rw [if_neg (by simpa using hts),if_neg hts]
  refine Spec.malloc (fun hal => Spec.pure (hnone hal)) fun e => ?_
  refine Spec.malloc (fun hal => Spec.free rfl (Spec.pure (hnone hal))) fun n => ?_
  refine intOf_spec (by unfold INT_MAX; omega) (intOf_spec ((Nat.le_add_right _ _).trans hinner) ?_)
  have hcollect : Spec _ (collectMembers al fmt (printEntry (depth + 1)) (depth + 1) n e fuel
      (headPtr none ts) ((7 + if fmt then depth + 1 else 0 : ℕ),false)) _ :=
    collectMembers_spec (depth + 1) ts hprint hnames hf n e ts.length [] [] (by simp) (by simp) none _ false
      hinner (by simp)
  refine Spec.call hcollect (show _ = _ + 0 by simp [allTexts,tables,add_assoc]) ?_
  rintro r _ ⟨ns,es,rfl,hr⟩
  rw [add_zero]
  set pre := tables n e ts.length ns es + chain none none ts with hpre
  refine readEntries_spec (show _ = _ + (allTexts ns + (cell e (.pointers ts.length (es.map textPtr)) +
    allTexts es) + chain none none ts) by rw [hpre,tables]; abel) ?_
  refine readEntries_spec (show _ = _ + (allTexts ns + cell n (.pointers ts.length (ns.map textPtr)) +
    allTexts es + chain none none ts) by rw [hpre,tables]; abel) ?_
  have hout : Spec pre (if r.2 then pure none else do
        let ks ← readEach (ns.map textPtr)
        let ms ← readEach (es.map textPtr)
        mallocText al r.1 (123 :: (CJson.newline fmt ++ composeMembers fmt (depth + 1) ks ms ++
          CJson.tabs fmt depth ++ [125])))
      fun q cs => ∃ own, cs = own + pre ∧ Prints al (CString.ofMem (123 :: (CJson.newline fmt ++
        composeMembers fmt (depth + 1) (ts.map fun t => (nameText t).bytes)
          (ts.map fun t => (text t).bytes) ++ CJson.tabs fmt depth ++ [125]))) q own := by
    rcases hr with ⟨hr,hal⟩ | ⟨ks,xs,-,rfl,hks,hxs,rfl,rfl⟩
    · rw [if_pos hr]
      exact Spec.pure (hnone hal)
    · rw [if_neg Bool.false_ne_true,List.nil_append,List.nil_append]
      refine readEach_spec ks (show _ = _ + (cell n (.pointers ts.length ((ks.map some).map textPtr)) +
        (cell e (.pointers ts.length ((xs.map some).map textPtr)) + allTexts (xs.map some)) +
          chain none none ts) by rw [hpre,tables,List.nil_append,List.nil_append]; abel) ?_
      refine readEach_spec xs (show _ = _ + (cell n (.pointers ts.length ((ks.map some).map textPtr)) +
        allTexts (ks.map some) + cell e (.pointers ts.length ((xs.map some).map textPtr)) +
          chain none none ts) by rw [hpre,tables,List.nil_append,List.nil_append]; abel) ?_
      rw [hks.bytes,hxs.bytes]
      refine mallocText_spec ?_ hinner _
      simp only [List.length_cons,List.length_append,List.length_nil]
      cases fmt <;> simp [CJson.tabs,CJson.newline] at * <;> omega
  refine hout.bind ?_
  rintro q _ ⟨own,rfl,hq⟩
  refine freeEach_spec ns (show _ = _ + (cell n (.pointers ts.length (ns.map textPtr)) +
    (cell e (.pointers ts.length (es.map textPtr)) + allTexts es) + (own + chain none none ts)) by
      rw [hpre,tables]; abel) ?_
  refine freeEach_spec es (show _ = _ + (cell n (.pointers ts.length (ns.map textPtr)) +
    (cell e (.pointers ts.length (es.map textPtr)) + (own + chain none none ts))) by abel) ?_
  exact Spec.free rfl (Spec.free rfl (Spec.pure ⟨own,rfl,hq⟩))

def valueText (p : Platform) (fmt : Bool) (depth : ℕ) (t : Item) : CString :=
  ⟨CJson.printValue p fmt depth t.tree,CJson.zero_notMem_printValue p fmt depth t.tree⟩

theorem ofMem_of_notMem {m : Bytes} (h : 0 ∉ m) : CString.ofMem m = ⟨m,h⟩ := by
  ext1
  exact cstr_of_nulFree h

theorem size_le_sizes {c : Item} {ts : List Item} (h : c ∈ ts) : c.size ≤ sizes ts := by
  induction ts with
  | nil => cases h
  | cons t ts ih =>
    rw [sizes]
    rcases List.mem_cons.mp h with rfl | h
    · omega
    · exact Nat.le_add_left_of_le (ih h)

theorem AllOwned.mem {c : Item} {ts : List Item} (hts : AllOwned ts) (h : c ∈ ts) : c.Owned := by
  induction ts with
  | nil => cases h
  | cons t ts ih =>
    rcases List.mem_cons.mp h with rfl | h
    · exact hts.1
    · exact ih hts.2 h

theorem prints_frame {s s' : CString} {c : Prog Ptr} {pre own rest : Cells}
    (h : Spec own c fun r cs => ∃ made, cs = made + own ∧ Prints al s r made) (hs : s = s')
    (hpre : pre = own + rest) : Spec pre c fun r cs => ∃ made, cs = made + pre ∧ Prints al s' r made := by
  refine Spec.tail h hpre ?_
  rintro r _ ⟨made,rfl,hr⟩
  exact ⟨made,by rw [hpre,add_assoc],hs ▸ hr⟩

/-- Every item whose text is not too long prints as its tree does. -/
theorem printValue_spec (t : Item) (ht : t.Owned) {f : ℕ} (hf : t.size ≤ f) (hfuel : t.size < fuel)
    (depth : ℕ) (hmax : depth + (valueText p fmt depth t).bytes.length ≤ PRINT_MAX) (prev next : Ptr) :
    Spec (t.cells prev next) (printValue al fuel p fmt f depth (some t.addr))
      fun r cs => ∃ own, cs = own + t.cells prev next ∧ Prints al (valueText p fmt depth t) r own := by
  induction f generalizing t depth prev next with
  | zero => exact absurd hf (by have := t.size_pos; omega)
  | succ f ih =>
    cases t with
    | reference a ty vs vi vd st ch => exact ht.elim
    | mk a ty vs vi vd st ch =>
      simp only [Item.size] at hf hfuel
      have hlen := length_le_sizes ch
      have hprint (hch : ∀ c ∈ ch, depth + 1 + (valueText p fmt (depth + 1) c).bytes.length ≤ PRINT_MAX) :
          PrintsEach al (printValue al fuel p fmt f (depth + 1)) (valueText p fmt (depth + 1)) ch :=
        fun c hc prev next => ih c (AllOwned.mem ht hc) (by have := size_le_sizes hc; omega)
          (by have := size_le_sizes hc; omega) (depth + 1) (hch c hc) prev next
      set t := Item.mk a ty vs vi vd st ch with ht'
      have hcells : t.cells prev next = chain none none ch + (cell a (.node (t.node prev next)) +
          (textCells vs + textCells st)) := by
        rw [ht',Item.cells,Item.owned,Item.addr]
        abel
      rw [printValue]
      refine readNode_spec (show _ = _ + t.owned from rfl) ?_
      cases ty with
      | null => exact prints_frame (strdup_prints _ _) (by rfl) (add_zero _).symm
      | false => exact prints_frame (strdup_prints _ _) (by rfl) (add_zero _).symm
      | true => exact prints_frame (strdup_prints _ _) (by rfl) (add_zero _).symm
      | number => exact prints_frame (strdup_prints _ _) (by rfl) (add_zero _).symm
      | string =>
        have hstring : (WddProc.printStringPtr (vs.map Prod.snd)).length < INT_MAX := by
          change depth + (WddProc.printStringPtr (vs.map Prod.snd)).length ≤ PRINT_MAX at hmax
          unfold PRINT_MAX at hmax
          unfold INT_MAX
          omega
        refine prints_frame (printStringPtr_spec vs hstring rfl) ?_ (show _ = textCells vs + 0 + (
          chain none none ch + (cell a (.node (t.node prev next)) + textCells st)) by rw [hcells]; abel)
        exact ofMem_of_notMem _
      | array =>
        have htext : 91 :: (composeItems fmt (ch.map fun t => (valueText p fmt (depth + 1) t).bytes) ++ [93]) =
            CJson.printValue p fmt depth t.tree := by
          rw [ht',Item.tree,CJson.printValue,← composeItems_eq]
          rfl
        change depth + (CJson.printValue p fmt depth t.tree).length ≤ PRINT_MAX at hmax
        rw [← htext,List.length_cons,List.length_append,List.length_singleton] at hmax
        have hentries := hprint fun c hc => by
          have h := mem_composeItems fmt (valueText p fmt (depth + 1)) hc
          omega
        refine prints_frame (printArray_spec depth ch hentries (by omega) (by omega)) ?_ hcells
        rw [htext]
        exact ofMem_of_notMem _
      | object =>
        have htext : (if ch = [] then 123 :: (CJson.newline fmt ++ CJson.tabs fmt (depth - 1) ++ [125])
            else 123 :: (CJson.newline fmt ++ composeMembers fmt (depth + 1)
              (ch.map fun t => (nameText t).bytes) (ch.map fun t => (valueText p fmt (depth + 1) t).bytes) ++
                CJson.tabs fmt depth ++ [125])) = CJson.printValue p fmt depth t.tree := by
          rw [ht',Item.tree,CJson.printValue,← composeMembers_eq]
          simp only [nameText_bytes]
          cases ch <;> rfl
        have hlong : depth + (composeMembers fmt (depth + 1) (ch.map fun t => (nameText t).bytes)
            (ch.map fun t => (valueText p fmt (depth + 1) t).bytes)).length + 2 ≤ PRINT_MAX := by
          change depth + (CJson.printValue p fmt depth t.tree).length ≤ PRINT_MAX at hmax
          rw [← htext] at hmax
          by_cases hch : ch = []
          · subst hch
            simp only [if_pos,List.length_cons,List.length_append,List.length_nil] at hmax
            simp only [List.map_nil,composeMembers,List.length_nil]
            omega
          · simp only [if_neg hch,List.length_cons,List.length_append,List.length_nil] at hmax
            omega
        have hentries := hprint fun c hc => by
          have h := mem_composeMembers fmt (depth + 1) (valueText p fmt (depth + 1)) hc
          omega
        refine prints_frame (printObject_spec depth ch hentries (by omega) hlong) ?_ hcells
        rw [htext]
        exact ofMem_of_notMem _

theorem print_spec (t : Item) (ht : t.Owned) (hfuel : t.size < fuel)
    (hmax : (valueText p true 0 t).bytes.length ≤ PRINT_MAX) (prev next : Ptr) :
    Spec (t.cells prev next) (print al fuel p (some t.addr))
      fun r cs => ∃ own, cs = own + t.cells prev next ∧ Prints al (valueText p true 0 t) r own :=
  printValue_spec t ht hfuel.le hfuel 0 (by rwa [zero_add]) prev next

theorem printUnformatted_spec (t : Item) (ht : t.Owned) (hfuel : t.size < fuel)
    (hmax : (valueText p false 0 t).bytes.length ≤ PRINT_MAX) (prev next : Ptr) :
    Spec (t.cells prev next) (printUnformatted al fuel p (some t.addr))
      fun r cs => ∃ own, cs = own + t.cells prev next ∧ Prints al (valueText p false 0 t) r own :=
  printValue_spec t ht hfuel.le hfuel 0 (by rwa [zero_add]) prev next

/-- On any heap that holds the item, and whichever calls for memory fail, `cJSON_Print` and
`cJSON_PrintUnformatted` of a tree without references, whose text has no more than 10^9 bytes, return
NULL and change nothing, or return the text. -/
theorem print_on_heap (al : Allocator Addr Block) (fuel : ℕ) (p : Platform) (fmt : Bool) (t : Item)
    (ht : t.Owned) (hfuel : t.size < fuel) (hmax : (CJson.printValue p fmt 0 t.tree).length ≤ 10^9)
    (prev next : Ptr) (rest : Cells) (heap : Heap Addr Block) (hheap : Holds heap (t.cells prev next + rest)) :
    ∃ r heap', (if fmt then print al fuel p (some t.addr) else printUnformatted al fuel p (some t.addr))
        heap = some (r,heap') ∧
      (r = none ∧ ¬ al.Total ∧ Holds heap' (t.cells prev next + rest) ∨
        ∃ b s, r = some b ∧ s.bytes = CJson.printValue p fmt 0 t.tree ∧
          Holds heap' (cell b (.text s) + (t.cells prev next + rest))) := by
  have hprint : Spec (t.cells prev next)
      (if fmt then print al fuel p (some t.addr) else printUnformatted al fuel p (some t.addr))
      fun r cs => ∃ own, cs = own + t.cells prev next ∧ Prints al (valueText p fmt 0 t) r own := by
    cases fmt with
    | true => exact print_spec t ht hfuel hmax prev next
    | false => exact printUnformatted_spec t ht hfuel hmax prev next
  obtain ⟨r,heap',_,hrun,⟨_,rfl,x,hx,rfl,rfl⟩,hh⟩ := hprint rest heap hheap
  refine ⟨_,heap',hrun,?_⟩
  rcases hx with ⟨rfl,hal⟩ | ⟨b,rfl⟩
  · exact Or.inl ⟨rfl,hal,by simpa [textCells] using hh⟩
  · exact Or.inr ⟨b,_,rfl,rfl,by rwa [add_assoc] at hh⟩

theorem print_on_heap_sample : ∃ r heap',
    (if true then print (.first Block) 3 .sample (some 0) else printUnformatted (.first Block) 3 .sample (some 0))
        sampleHeap = some (r,heap') ∧
      (r = none ∧ ¬ (Allocator.first Block).Total ∧ Holds heap' (sampleItem.cells none none + 0) ∨
        ∃ b s, r = some b ∧ s.bytes = CJson.printValue .sample true 0 sampleItem.tree ∧
          Holds heap' (cell b (.text s) + (sampleItem.cells none none + 0))) :=
  print_on_heap (.first Block) 3 .sample true sampleItem ⟨trivial,trivial⟩ (by decide) (by decide) none none 0
    sampleHeap sampleHeap_holds

end printing

end CJsonHeap
end WddProc
