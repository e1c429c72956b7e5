import WddProc.CJsonParseHeap
import WddProc.ConfigNumbers

/-!
# Loading the configuration on the heap

`load_configuration` reads the file into a buffer, parses the buffer into items, walks over the
items and deletes them. It stores what it would store without a heap, and on every way out the
heap's blocks are those it found.
-/

namespace WddProc
namespace CJsonHeap

open OwnedHeap

section model

variable {σ : Type} (F : LoadFile.File σ) (al : Allocator Addr Block) (fuel : ℕ) (p : Platform)

def writeBuffer (a : Addr) (offset : ℕ) (bs : Bytes) : Prog Unit := do
  match ← Prog.load a with
  | .buffer m =>
    if offset + bs.length ≤ m.length then
      Prog.store a (.buffer (m.take offset ++ (bs ++ m.drop (offset + bs.length))))
    else Prog.fault
  | _ => Prog.fault

def readBuffer (a : Addr) : Prog Bytes := do
  match ← Prog.load a with
  | .buffer m => pure m
  | _ => Prog.fault

/-- The loop of `load_json_file`; `n` is `ps - jsonstr`. -/
def readFile : ℕ → Addr → σ → ℕ → Prog σ
  | 0, _, _, _ => Prog.fault
  | f+1, jsonstr, s, n =>
    if !F.feof s ∧ n < LoadFile.FILE_BUF_SIZE then do
      let r := F.fread s (LoadFile.request n)
      writeBuffer jsonstr n r.1
      readFile f jsonstr r.2 (n + r.1.length)
    else pure s

/-- `load_json_file`; `mem` is what the buffer holds before, `none` a file that does not open. -/
def loadJsonFile (mem : Bytes) (fp : Option σ) : Prog Ptr := do
  match ← Prog.malloc al (.buffer mem) with
  | none => pure none
  | some jsonstr =>
    match fp with
    | none => do
      Prog.free jsonstr
      pure none
    | some s => do
      let s ← readFile F fuel jsonstr s 0
      if !F.feof s then do
        Prog.free jsonstr
        pure none
      else do
        let m ← readBuffer jsonstr
        let json ← parse al fuel p (some m)
        -- the warning prints the buffer with `%s`
        Prog.when json.isNone (if 0 ∈ m then pure () else Prog.fault)
        Prog.free jsonstr
        pure json

def fetch : Ptr → Prog (Option CString)
  | none => pure none
  | some a => do
    let s ← readString (.block a)
    pure (some s)

def useString {α : Type} (valuestring : Ptr) (g : CString → α) : Prog α :=
  match valuestring with
  | none => Prog.fault
  | some a => do
    let s ← readString (.block a)
    pure (g s)

/-- `for (next = json->child; NULL != next; next = next->next)`. -/
def forEach {α : Type} (body : α → Node → Prog α) : ℕ → Ptr → α → Prog α
  | 0, _, _ => Prog.fault
  | _+1, none, a => pure a
  | f+1, some next, a => do
    let n ← readNode (some next)
    let a ← body a n
    forEach body f n.next a

def parseObjectField (pinfo : HwInfo) (next : Node) : Prog HwInfo := do
  let name ← fetch next.string
  if Config.strcasecmp (utf8 "id") name then
    useString next.valuestring fun s => { pinfo with id := CharArray.strncpyFrom 64 s }
  else if Config.strcasecmp (utf8 "name") name then
    useString next.valuestring fun s => { pinfo with name := CharArray.strncpyFrom 64 s }
  else if Config.strcasecmp (utf8 "disable") name then
    pure { pinfo with disable := next.type = .true }
  else if Config.strcasecmp (utf8 "time") name then
    useString next.valuestring fun s => { pinfo with time := CharArray.strncpyFrom 64 s }
  else pure pinfo

def cJSONParseObjectInfo (json : Ptr) (pinfo : HwInfo) : Prog HwInfo :=
  match json with
  | none => pure pinfo
  | some json => do
    let n ← readNode (some json)
    forEach parseObjectField fuel n.child pinfo

def setRange (range : ℤ × ℤ) (child : Ptr) : Prog (ℤ × ℤ) :=
  match child with
  | none => pure range
  | some a => do
    let n ← readNode (some a)
    match n.next with
    | none => pure (toInt32 n.valueint,range.2)
    | some b => do
      let m ← readNode (some b)
      pure (toInt32 n.valueint,toInt32 m.valueint)

def parseParamField (pval : HwCache) (next : Node) : Prog HwCache := do
  let name ← fetch next.string
  if Config.strcasecmp (utf8 "kks") name then
    useString next.valuestring fun s => { pval with kks := CharArray.strncpyFrom 64 s }
  else if Config.strcasecmp (utf8 "vtype") name then
    useString next.valuestring fun s => { pval with valType := getHwTypeByName s }
  else if Config.strcasecmp (utf8 "zone") name then
    useString next.valuestring fun s => { pval with zone := CharArray.strncpyFrom 64 s }
  else if Config.strcasecmp (utf8 "ref") name then
    useString next.valuestring fun s => { pval with ref := CharArray.strncpyFrom 128 s }
  else if Config.strcasecmp (utf8 "port") name then
    pure { pval with gpio := { pval.gpio with io := Config.toPort next.valueint } }
  else if Config.strcasecmp (utf8 "rangeI") name then do
    let r ← setRange pval.rangeI next.child
    pure { pval with rangeI := r }
  else if Config.strcasecmp (utf8 "rangeD") name then do
    let r ← setRange pval.rangeD next.child
    pure { pval with rangeD := r }
  else pure pval

def cJSONParseParamInfo (json : Ptr) (pval : HwCache) : Prog HwCache :=
  match json with
  | none => pure pval
  | some json => do
    let n ← readNode (some json)
    forEach parseParamField fuel n.child pval

def parseParams : List HwCache → Ptr → Prog (List HwCache)
  | [], _ => pure []
  | ps, none => pure ps
  | pd :: ps, some next => do
    let pd ← cJSONParseParamInfo fuel (some next) pd
    let n ← readNode (some next)
    let ps ← parseParams ps n.next
    pure (pd :: ps)

def parseMainField (pCache : List HwCache) (next : Node) : Prog (List HwCache) := do
  let name ← fetch next.string
  if Config.strcasecmp Config.CONF_PARAM_FIELD name then parseParams fuel pCache next.child
  else pure pCache

def cJSONParseMainInfo (json : Ptr) (hw : Hardware) : Prog Hardware :=
  match json with
  | none => pure hw
  | some json => do
    let hwInfo ← cJSONParseObjectInfo fuel (some json) hw.hwInfo
    let n ← readNode (some json)
    let pCache ← forEach (parseMainField fuel) fuel n.child hw.pCache
    pure ⟨hwInfo,pCache⟩

def loadConfiguration (mem : Bytes) (fp : Option σ) (hw : Hardware) : Prog (ℤ × Hardware) := do
  match ← loadJsonFile F al fuel p mem fp with
  | none => pure (-1,hw)
  | some json => do
    let hw ← cJSONParseMainInfo fuel (some json) hw
    delete fuel (some json)
    pure (0,hw)

end model

section buffer

variable {σ : Type} (F : LoadFile.File σ) {mem : Bytes}

theorem readFile_spec (hmem : mem.length = LoadFile.FILE_BUF_SIZE) (a : Addr) {k f : ℕ} (hf : k < f)
    {s s' : σ} {buf buf' : Bytes} (hbuf : buf.length ≤ LoadFile.FILE_BUF_SIZE)
    (hrounds : LoadFile.rounds F k (s,buf) = some (s',buf'))
    (hend : LoadFile.readRound F (s',buf') = none) :
    Spec (cell a (.buffer (buf ++ mem.drop buf.length))) (readFile F f a s buf.length)
      fun r cs => r = s' ∧ buf'.length ≤ LoadFile.FILE_BUF_SIZE ∧
        cs = cell a (.buffer (buf' ++ mem.drop buf'.length)) := by
  induction k generalizing s buf f with
  | zero =>
    obtain ⟨f,rfl⟩ := Nat.exists_eq_succ_of_ne_zero (Nat.ne_of_gt hf)
    cases hrounds
    have hstop : ¬ ((!F.feof s') = true ∧ buf'.length < LoadFile.FILE_BUF_SIZE) := by
      intro hgo
      rw [LoadFile.readRound,if_pos hgo] at hend
      cases hend
    rw [readFile,if_neg hstop]
    exact Spec.pure ⟨rfl,hbuf,rfl⟩
  | succ k ih =>
    obtain ⟨f,rfl⟩ := Nat.exists_eq_succ_of_ne_zero (Nat.ne_of_gt (Nat.zero_lt_of_lt hf))
    have hgo : (!F.feof s) = true ∧ buf.length < LoadFile.FILE_BUF_SIZE := by
      by_contra hstop
      rw [LoadFile.rounds,LoadFile.readRound,if_neg hstop] at hrounds
      cases hrounds
    rw [LoadFile.rounds,LoadFile.readRound,if_pos hgo] at hrounds
    rw [readFile,if_pos hgo]
    set r := F.fread s (LoadFile.request buf.length) with hr
    have hlen : buf.length + r.1.length ≤ LoadFile.FILE_BUF_SIZE := by
      have hread := F.fread_length s (LoadFile.request buf.length)
      have hroom := LoadFile.request_le buf.length
      rw [← hr] at hread
      omega
    have hblock : (buf ++ mem.drop buf.length).length = LoadFile.FILE_BUF_SIZE := by
      rw [List.length_append,List.length_drop]
      omega
    have hstored : (buf ++ mem.drop buf.length).take buf.length ++
        (r.1 ++ (buf ++ mem.drop buf.length).drop (buf.length + r.1.length)) =
          (buf ++ r.1) ++ mem.drop (buf ++ r.1).length := by
      rw [List.take_left,List.drop_append,List.drop_drop,List.length_append,List.append_assoc]
      simp
    have hnext := ih (Nat.lt_of_succ_lt_succ hf) (by rw [List.length_append]; exact hlen) hrounds
    rw [List.length_append] at hnext
    unfold writeBuffer
    rw [bind_assoc]
    refine Spec.load (add_zero _).symm ?_
    simp only [hblock,if_pos hlen]
    refine Spec.store (add_zero _).symm ?_
    rw [hstored,add_zero,List.length_append]
    exact hnext

theorem readBuffer_spec {α : Type} {pre cs : Cells} {a : Addr} {m : Bytes} {k : Bytes → Prog α}
    {goal : α → Cells → Prop} (hpre : pre = cell a (.buffer m) + cs) (hk : Spec pre (k m) goal) :
    Spec pre (readBuffer a >>= k) goal := by
  unfold readBuffer
  rw [bind_assoc]
  exact Spec.load hpre (by simpa using hk)

end buffer

section items

variable {α β : Type} {pre cs : Cells}

theorem fetch_spec {k : Option CString → Prog α} {goal : α → Cells → Prop} (x : Option Text)
    (hpre : pre = textCells x + cs) (hk : Spec pre (k (x.map Prod.snd)) goal) :
    Spec pre (fetch (textPtr x) >>= k) goal := by
  cases x with
  | none => exact hk
  | some x =>
    change Spec pre ((readString (.block x.1) >>= fun s => pure (some s)) >>= k) goal
    rw [bind_assoc]
    exact readString_block hpre (by simpa using hk)

/-- The program does what the function does, and leaves the blocks as they are. -/
def Reads (o : Option α) (pre : Cells) (c : Prog α) : Prop :=
  ∀ a, o = some a → Spec pre c fun r cs => r = a ∧ cs = pre

theorem Reads.pure (a : α) : Reads (some a) pre (Pure.pure a) := by
  rintro _ ⟨⟩
  exact Spec.pure ⟨rfl,rfl⟩

theorem Reads.bind {o : Option α} {f : α → Option β} {c : Prog α} {k : α → Prog β} (h : Reads o pre c)
    (hk : ∀ a, Reads (f a) pre (k a)) : Reads (o.bind f) pre (c >>= k) := by
  intro b hb
  obtain ⟨a,ha,hb⟩ := Option.bind_eq_some_iff.mp hb
  refine (h a ha).bind ?_
  rintro _ _ ⟨rfl,rfl⟩
  exact hk _ b hb

theorem Reads.ite {b : Bool} {o o' : Option α} {c c' : Prog α} (h : Reads o pre c) (h' : Reads o' pre c') :
    Reads (if b then o else o') pre (if b then c else c') := by
  cases b
  · exact h'
  · exact h

theorem Reads.part {o : Option α} {own : Cells} {c : Prog α} (h : Reads o own c) (hpre : pre = own + cs) :
    Reads o pre c := by
  intro a ha
  refine Spec.tail (h a ha) hpre ?_
  rintro r _ ⟨rfl,rfl⟩
  exact ⟨rfl,hpre.symm⟩

theorem Reads.node {o : Option α} {a : Addr} {n : Node} {k : Node → Prog α}
    (hpre : pre = cell a (.node n) + cs) (hk : Reads o pre (k n)) :
    Reads o pre (readNode (some a) >>= k) := fun b hb => readNode_spec hpre (hk b hb)

theorem Reads.fetch {o : Option α} {k : Option CString → Prog α} (x : Option Text)
    (hpre : pre = textCells x + cs) (hk : Reads o pre (k (x.map Prod.snd))) :
    Reads o pre (fetch (textPtr x) >>= k) := fun b hb => fetch_spec x hpre (hk b hb)

theorem Reads.useString (x : Option Text) (hpre : pre = textCells x + cs) (g : CString → α) :
    Reads ((x.map Prod.snd).map g) pre (useString (textPtr x) g) := by
  cases x with
  | none => exact nofun
  | some x =>
    rintro _ ⟨⟩
    exact readString_block hpre (Spec.pure ⟨rfl,rfl⟩)

/-- A loop over the children does what the fold over their trees does. -/
theorem Reads.forEach {body : α → Node → Prog α} {f : α → CJson → Option α} {ts : List Item}
    (hbody : ∀ t ∈ ts, ∀ prev next a, Reads (f a t.tree) (t.cells prev next) (body a (t.node prev next)))
    {fuel : ℕ} (hf : ts.length < fuel) (prev : Ptr) (a : α) :
    Reads ((trees ts).foldlM f a) (chain prev none ts) (forEach body fuel (headPtr none ts) a) := by
  induction ts generalizing prev fuel a with
  | nil =>
    obtain ⟨fuel,rfl⟩ := Nat.exists_eq_succ_of_ne_zero (Nat.ne_of_gt hf)
    exact Reads.pure a
  | cons t ts ih =>
    obtain ⟨fuel,rfl⟩ := Nat.exists_eq_succ_of_ne_zero (Nat.ne_of_gt (Nat.zero_lt_of_lt hf))
    rw [trees,List.foldlM_cons,headPtr_cons,CJsonHeap.forEach]
    refine Reads.node (chain_first prev none t ts) ?_
    rw [Item.node_next]
    have ht := hbody t (List.mem_cons_self ..) prev (headPtr none ts) a
    refine Reads.bind (ht.part (chain_cons prev none t ts)) fun a' => ?_
    have hts := ih (fun u hu => hbody u (List.mem_cons_of_mem t hu)) (Nat.lt_of_succ_lt_succ hf)
      (some t.addr) a'
    exact hts.part (chain_cons_comm prev none t ts)

end items

section fields

variable (a : Addr) (ty : CJsonType) (vs : Option Text) (vi : ℤ) (vd : F64) (st : Option Text)
  (ch : List Item) (prev next : Ptr)

theorem item_string : (Item.mk a ty vs vi vd st ch).cells prev next = textCells st +
    (cell a (.node ((Item.mk a ty vs vi vd st ch).node prev next)) + textCells vs + chain none none ch) := by
  rw [Item.cells,Item.owned,Item.addr]
  abel

theorem item_valuestring : (Item.mk a ty vs vi vd st ch).cells prev next = textCells vs +
    (cell a (.node ((Item.mk a ty vs vi vd st ch).node prev next)) + textCells st + chain none none ch) := by
  rw [Item.cells,Item.owned,Item.addr]
  abel

theorem item_child : (Item.mk a ty vs vi vd st ch).cells prev next = chain none none ch +
    (cell a (.node ((Item.mk a ty vs vi vd st ch).node prev next)) + textCells vs + textCells st) := by
  rw [Item.cells,Item.owned,Item.addr]
  abel

theorem parseObjectField_reads (pinfo : HwInfo) :
    Reads (Config.parseObjectField pinfo (Item.mk a ty vs vi vd st ch).tree)
      ((Item.mk a ty vs vi vd st ch).cells prev next)
      (parseObjectField pinfo ((Item.mk a ty vs vi vd st ch).node prev next)) := by
  have hstring {α : Type} (g : CString → α) :=
    Reads.useString vs (item_valuestring a ty vs vi vd st ch prev next) g
  refine Reads.fetch st (item_string a ty vs vi vd st ch prev next) ?_
  refine Reads.ite (hstring _) (Reads.ite (hstring _) (Reads.ite (Reads.pure _) (Reads.ite (hstring _) ?_)))
  exact Reads.pure pinfo

theorem setRange_reads (range : ℤ × ℤ) : Reads (some (Config.setRange range (trees ch)))
    (chain none none ch) (setRange range (headPtr none ch)) := by
  match ch with
  | [] => exact Reads.pure range
  | [t] =>
    refine Reads.node (chain_first none none t []) ?_
    rw [Item.node_next]
    cases t <;> exact Reads.pure _
  | t :: u :: ts =>
    refine Reads.node (chain_first none none t (u :: ts)) ?_
    rw [Item.node_next]
    refine Reads.node (show _ = cell u.addr (.node (u.node (some t.addr) (headPtr none ts))) +
      (u.owned + chain (some u.addr) none ts + t.cells none (some u.addr)) by
        rw [chain_cons_comm,chain_first,headPtr_cons]; abel) ?_
    cases t <;> cases u <;> exact Reads.pure _

theorem parseParamField_reads (pval : HwCache) :
    Reads (Config.parseParamField pval (Item.mk a ty vs vi vd st ch).tree)
      ((Item.mk a ty vs vi vd st ch).cells prev next)
      (parseParamField pval ((Item.mk a ty vs vi vd st ch).node prev next)) := by
  have hstring {α : Type} (g : CString → α) :=
    Reads.useString vs (item_valuestring a ty vs vi vd st ch prev next) g
  have hrange {α : Type} (range : ℤ × ℤ) (g : ℤ × ℤ → α) :
      Reads (some (g (Config.setRange range (trees ch)))) ((Item.mk a ty vs vi vd st ch).cells prev next)
        (setRange range (headPtr none ch) >>= fun r => pure (g r)) :=
    Reads.bind (f := fun r => some (g r)) ((setRange_reads ch range).part
      (item_child a ty vs vi vd st ch prev next)) fun r => Reads.pure (g r)
  refine Reads.fetch st (item_string a ty vs vi vd st ch prev next) ?_
  refine Reads.ite (hstring _) (Reads.ite (hstring _) (Reads.ite (hstring _) (Reads.ite (hstring _)
    (Reads.ite (Reads.pure _) (Reads.ite ?_ (Reads.ite ?_ (Reads.pure pval)))))))
  · exact hrange pval.rangeI fun r => { pval with rangeI := r }
  · exact hrange pval.rangeD fun r => { pval with rangeD := r }

end fields

section walk

variable {fuel : ℕ}

theorem Reads.children {α : Type} {body : α → Node → Prog α} {f : α → CJson → Option α} {u : Item}
    (hu : u.Owned) (hf : u.size ≤ fuel)
    (hbody : ∀ t : Item, t.Owned → t.size < u.size → ∀ prev next a,
      Reads (f a t.tree) (t.cells prev next) (body a (t.node prev next))) (prev next : Ptr) (a : α) :
    Reads (u.tree.child.foldlM f a) (u.cells prev next)
      (readNode (some u.addr) >>= fun n => CJsonHeap.forEach body fuel n.child a) := by
  cases u with
  | reference b ty vs vi vd st ch => exact hu.elim
  | mk b ty vs vi vd st ch =>
    have hsize : sizes ch + 1 ≤ fuel := hf
    have hlen := length_le_sizes ch
    refine Reads.node (show _ = _ + (Item.mk b ty vs vi vd st ch).owned from rfl) ?_
    refine (Reads.forEach (fun t ht => hbody t (AllOwned.mem hu ht) ?_) (by omega) none a).part
      (item_child b ty vs vi vd st ch prev next)
    have hmem := size_le_sizes ht
    simp only [Item.size]
    omega

theorem cJSONParseObjectInfo_reads {u : Item} (hu : u.Owned) (hf : u.size ≤ fuel) (prev next : Ptr)
    (pinfo : HwInfo) : Reads (Config.cJSONParseObjectInfo u.tree pinfo) (u.cells prev next)
      (cJSONParseObjectInfo fuel (some u.addr) pinfo) := by
  refine Reads.children hu hf (fun t ht _ prev next pinfo => ?_) prev next pinfo
  cases t with
  | mk b ty vs vi vd st ch => exact parseObjectField_reads b ty vs vi vd st ch prev next pinfo
  | reference b ty vs vi vd st ch => exact ht.elim

theorem cJSONParseParamInfo_reads {u : Item} (hu : u.Owned) (hf : u.size ≤ fuel) (prev next : Ptr)
    (pval : HwCache) : Reads (Config.cJSONParseParamInfo u.tree pval) (u.cells prev next)
      (cJSONParseParamInfo fuel (some u.addr) pval) := by
  refine Reads.children hu hf (fun t ht _ prev next pval => ?_) prev next pval
  cases t with
  | mk b ty vs vi vd st ch => exact parseParamField_reads b ty vs vi vd st ch prev next pval
  | reference b ty vs vi vd st ch => exact ht.elim

theorem parseParams_reads {ts : List Item} (hts : AllOwned ts) (hf : sizes ts ≤ fuel) (prev : Ptr)
    (ps : List HwCache) : Reads (Config.parseParams ps (trees ts)) (chain prev none ts)
      (parseParams fuel ps (headPtr none ts)) := by
  induction ts generalizing prev ps with
  | nil => cases ps <;> exact Reads.pure _
  | cons t ts ih =>
    cases ps with
    | nil => exact Reads.pure []
    | cons pd ps =>
      rw [sizes] at hf
      have ht := cJSONParseParamInfo_reads hts.1 (show t.size ≤ fuel by omega) prev (headPtr none ts) pd
      refine Reads.bind (ht.part (chain_cons prev none t ts)) fun pd' => ?_
      refine Reads.node (chain_first prev none t ts) ?_
      rw [Item.node_next]
      refine Reads.bind ((ih hts.2 (by omega) (some t.addr) ps).part (chain_cons_comm prev none t ts))
        fun ps' => ?_
      exact Reads.pure (pd' :: ps')

theorem parseMainField_reads {t : Item} (ht : t.Owned) (hf : t.size ≤ fuel) (prev next : Ptr)
    (pCache : List HwCache) : Reads (Config.parseMainField pCache t.tree) (t.cells prev next)
      (parseMainField fuel pCache (t.node prev next)) := by
  cases t with
  | reference b ty vs vi vd st ch => exact ht.elim
  | mk b ty vs vi vd st ch =>
    have hsize : sizes ch + 1 ≤ fuel := hf
    refine Reads.fetch st (item_string b ty vs vi vd st ch prev next) (Reads.ite ?_ (Reads.pure pCache))
    exact (parseParams_reads ht (by omega) none pCache).part (item_child b ty vs vi vd st ch prev next)

theorem cJSONParseMainInfo_reads {u : Item} (hu : u.Owned) (hf : u.size ≤ fuel) (prev next : Ptr)
    (hw : Hardware) : Reads (Config.cJSONParseMainInfo u.tree hw) (u.cells prev next)
      (cJSONParseMainInfo fuel (some u.addr) hw) := by
  refine Reads.bind (cJSONParseObjectInfo_reads hu hf prev next hw.hwInfo) fun hwInfo => ?_
  have hloop := Reads.children hu hf (fun t ht hlt prev next pCache =>
    parseMainField_reads ht (show t.size ≤ fuel by omega) prev next pCache) prev next hw.pCache
  have hall := Reads.bind (f := fun pCache => some (Hardware.mk hwInfo pCache)) hloop fun pCache =>
    Reads.pure (Hardware.mk hwInfo pCache)
  rw [bind_assoc] at hall
  exact hall

end walk

section load

variable {σ : Type} (F : LoadFile.File σ) (al : Allocator Addr Block) (p : Platform)

/-- What the buffer holds after the loop. -/
def loaded (mem : Bytes) (t : σ × Bytes) : Bytes := t.2 ++ mem.drop t.2.length

/-- Where memory may be short, a NUL ends the text of the warning. -/
def Warns (mem : Bytes) (fp : Option σ) : Prop :=
  al.Total ∨ ∀ s t, fp = some s → LoadFile.Ends F (s,[]) t → F.feof t.1 = true → 0 ∈ loaded mem t

theorem parseBuffer_spec {m : Bytes} {fuel : ℕ} (hfuel : 3 * m.length + 3 ≤ fuel)
    (hmax : m.length ≤ INT_MAX) (a : Addr)
    (hparse : LoadFile.parseBlock p m ≠ .fault) (hnul : al.Total ∨ 0 ∈ m) :
    Spec (cell a (.buffer m)) (do
        let m ← readBuffer a
        let json ← parse al fuel p (some m)
        Prog.when json.isNone (if 0 ∈ m then pure () else Prog.fault)
        Prog.free a
        pure json)
      fun r cs => Makes al (fun u => LoadFile.parseBlock p m = .done u.tree ∧ u.Owned ∧ u.size < fuel) r cs ∨
        LoadFile.parseBlock p m = .null ∧ r = none ∧ cs = 0 := by
  have hm : Parse.cJSONParse p m ≠ .fault := by
    intro h
    exact hparse (by rw [LoadFile.parseBlock,h])
  refine readBuffer_spec (add_zero _).symm ?_
  refine Spec.call (parse_spec al fuel p hfuel hmax hm) (zero_add _).symm ?_
  rintro r cs ((⟨rfl,hal,rfl⟩ | ⟨u,rfl,⟨hdone,hu,hsize⟩,rfl⟩) | ⟨hnull,rfl,rfl⟩)
  · simp only [Option.isNone_none,Prog.when_true,if_pos (hnul.resolve_left hal),pure_bind,zero_add]
    refine Spec.free (add_zero _).symm (Spec.pure ?_)
    exact Or.inl (Or.inl ⟨rfl,hal,rfl⟩)
  · have hblock : LoadFile.parseBlock p m = .done u.tree := by rw [LoadFile.parseBlock,hdone]
    simp only [Option.isNone_some,Prog.when_false,pure_bind]
    refine Spec.free (add_comm _ _) (Spec.pure ?_)
    exact Or.inl (Or.inr ⟨u,rfl,⟨hblock,hu,by omega⟩,rfl⟩)
  · have h0 : 0 ∈ m := by
      by_contra h0
      exact hparse (by rw [LoadFile.parseBlock,hnull]; exact if_neg h0)
    have hblock : LoadFile.parseBlock p m = .null := by
      rw [LoadFile.parseBlock,hnull]
      exact if_pos h0
    simp only [Option.isNone_none,Prog.when_true,if_pos h0,pure_bind,zero_add]
    refine Spec.free (add_zero _).symm (Spec.pure ?_)
    exact Or.inr ⟨hblock,rfl,rfl⟩

theorem loadJsonFile_spec {mem : Bytes} (hmem : mem.length = LoadFile.FILE_BUF_SIZE) {fp : Option σ}
    {o : Outcome CJson} (hret : LoadFile.Returns F p mem fp o) (ho : o ≠ .fault) (hnul : Warns F al mem fp) :
    ∃ k, ∀ fuel, k ≤ fuel → Spec 0 (loadJsonFile F al fuel p mem fp) fun r cs =>
      Makes al (fun u => o = .done u.tree ∧ u.Owned ∧ u.size < fuel) r cs ∨ o = .null ∧ r = none ∧ cs = 0 := by
  cases hret with
  | closed =>
    refine ⟨0,fun fuel _ => Spec.malloc (fun hal => Spec.pure (Or.inl (Or.inl ⟨rfl,hal,rfl⟩))) fun a => ?_⟩
    refine Spec.free (add_zero _).symm (Spec.pure ?_)
    exact Or.inr ⟨rfl,rfl,rfl⟩
  | @read s t hends =>
    obtain ⟨k,hrounds,hend⟩ := hends
    obtain ⟨s',buf'⟩ := t
    refine ⟨max (k + 1) (3 * LoadFile.FILE_BUF_SIZE + 3),fun fuel hk => ?_⟩
    have hk₁ : k < fuel := lt_of_lt_of_le (Nat.lt_succ_self k) ((le_max_left _ _).trans hk)
    have hk₂ : 3 * LoadFile.FILE_BUF_SIZE + 3 ≤ fuel := (le_max_right _ _).trans hk
    refine Spec.malloc (fun hal => Spec.pure (Or.inl (Or.inl ⟨rfl,hal,rfl⟩))) fun a => ?_
    refine Spec.call (readFile_spec F hmem a hk₁ (Nat.zero_le _) hrounds hend) rfl ?_
    rintro r _ ⟨rfl,hbuf,rfl⟩
    rw [add_zero]
    cases heof : F.feof r with
    | false =>
      have hafter : LoadFile.afterLoop F p mem (r,buf') = .null := by simp [LoadFile.afterLoop,heof]
      refine Spec.free (add_zero _).symm (Spec.pure ?_)
      exact Or.inr ⟨hafter,rfl,rfl⟩
    | true =>
      have hafter : LoadFile.afterLoop F p mem (r,buf') = LoadFile.parseBlock p (loaded mem (r,buf')) := by
        simp [LoadFile.afterLoop,heof,loaded]
      rw [hafter] at ho ⊢
      have hlen : (loaded mem (r,buf')).length ≤ LoadFile.FILE_BUF_SIZE := by
        simp only [loaded,List.length_append,List.length_drop]
        omega
      have hmax : LoadFile.FILE_BUF_SIZE ≤ INT_MAX := by decide
      refine parseBuffer_spec al p (by omega) (hlen.trans hmax) a ho ?_
      exact hnul.imp_right fun h => h s (r,buf') rfl ⟨k,hrounds,hend⟩ heof

variable {F} in
/-- With enough fuel and on any heap, `load_configuration` ends with what it stores without a heap, or
refuses for want of memory; no block is left over and none is lost. Where a call for memory may
fail, the warning needs a NUL in the buffer. -/
theorem load_configuration_on_heap {mem : Bytes} (hmem : mem.length = LoadFile.FILE_BUF_SIZE)
    {fp : Option σ} {o : Outcome CJson} (hret : LoadFile.Returns F p mem fp o) {hw : Hardware}
    {r : ℤ × Hardware} (hload : ConfigNumbers.loadConfiguration o hw = .done r) (hnul : Warns F al mem fp) :
    ∃ k, ∀ fuel, k ≤ fuel → ∀ rest heap, Holds heap rest →
      ∃ r' heap', loadConfiguration F al fuel p mem fp hw heap = some (r',heap') ∧
        (r' = r ∨ ¬ al.Total ∧ r' = (-1,hw)) ∧ Holds heap' rest := by
  have ho : o ≠ .fault := by
    rintro rfl
    cases hload
  obtain ⟨k,hk⟩ := loadJsonFile_spec F al p hmem hret ho hnul
  refine ⟨k,fun fuel hfuel rest heap hheap => ?_⟩
  have hspec : Spec 0 (loadConfiguration F al fuel p mem fp hw) fun r' cs =>
      (r' = r ∨ ¬ al.Total ∧ r' = (-1,hw)) ∧ cs = 0 := by
    refine (hk fuel hfuel).bind ?_
    rintro _ _ ((⟨rfl,hal,rfl⟩ | ⟨u,rfl,⟨rfl,hu,hsize⟩,rfl⟩) | ⟨rfl,rfl,rfl⟩)
    · exact Spec.pure ⟨Or.inr ⟨hal,rfl⟩,rfl⟩
    · cases hmain : Config.cJSONParseMainInfo u.tree hw with
      | none =>
        rw [ConfigNumbers.loadConfiguration,hmain] at hload
        cases hload
      | some hw' =>
        rw [ConfigNumbers.loadConfiguration,hmain] at hload
        cases hload
        refine (cJSONParseMainInfo_reads hu hsize.le none none hw hw' hmain).bind ?_
        rintro _ _ ⟨rfl,rfl⟩
        refine Spec.call (delete_spec [u] (by simpa [sizes] using hsize) none)
          (show _ = _ + 0 by rw [chain_singleton,add_zero]) ?_
        rintro _ _ rfl
        exact Spec.pure ⟨Or.inl rfl,rfl⟩
    · cases hload
      exact Spec.pure ⟨Or.inl rfl,rfl⟩
  obtain ⟨r',heap',_,hrun,⟨hr,rfl⟩,hh⟩ := hspec rest heap (by rwa [zero_add])
  exact ⟨r',heap',hrun,hr,by rwa [zero_add] at hh⟩

theorem empty_list_loads (hw : Hardware) : ∃ o,
    LoadFile.Returns LoadFile.regular .sample (List.replicate LoadFile.FILE_BUF_SIZE 0)
      (some ([91,93],false)) o ∧ ConfigNumbers.loadConfiguration o hw = .done (0,hw) := by
  have harray : Parse.cJSONParse .sample [91,93] = .done (.mk .array none 0 0 none []) := rfl
  have hdec : LoadFile.Decided .sample [91,93] := by
    obtain ⟨j,hj,-⟩ := (Parse.cJSONParse_iff .sample).mp harray
    exact Or.inl ⟨j,hj⟩
  refine ⟨_,(LoadFile.loads_small .sample (by decide) _ _).mpr rfl,?_⟩
  rw [LoadFile.parseBlock_append .sample hdec,harray]
  rfl

theorem load_configuration_on_heap_sample : ∃ k, ∀ fuel, k ≤ fuel → ∀ rest heap,
    Holds heap rest → ∃ r' heap', loadConfiguration LoadFile.regular (.first Block) fuel .sample
      (List.replicate LoadFile.FILE_BUF_SIZE 0) (some ([91,93],false)) ConfigTypes.oneChannel
        heap = some (r',heap') ∧ (r' = (0,ConfigTypes.oneChannel) ∨
          ¬ (Allocator.first Block).Total ∧ r' = (-1,ConfigTypes.oneChannel)) ∧ Holds heap' rest := by
  obtain ⟨o,hret,hload⟩ := empty_list_loads ConfigTypes.oneChannel
  exact load_configuration_on_heap (.first Block) .sample List.length_replicate hret hload
    (Or.inl (Allocator.first_total Block))

end load

end CJsonHeap
end WddProc
