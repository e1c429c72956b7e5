import WddProc.CJsonClient
import WddProc.FrameSize

/-!
# The report on the heap

`ws_format_hardware_data` builds its document from heap items, prints it and deletes it. What
stays is the printed text; a slot without a cache makes it return early, and then the trees
that it has built stay as well.
-/

namespace WddProc
namespace CJsonHeap

open OwnedHeap

/-- The tree `t` stands at `a`, with these blocks and no neighbours. -/
def Stands (a : Addr) (t : CJson) (cs : Cells) : Prop :=
  ∃ u : Item, u.addr = a ∧ u.Owned ∧ u.tree = t ∧ cs = u.cells none none

mutual

def nodes : CJson → ℕ
  | .mk _ _ _ _ _ ch => allNodes ch + 1

def allNodes : List CJson → ℕ
  | [] => 0
  | t :: ts => nodes t + allNodes ts

end

theorem allNodes_append (ts us : List CJson) : allNodes (ts ++ us) = allNodes ts + allNodes us := by
  induction ts with
  | nil => simp [allNodes]
  | cons t ts ih => rw [List.cons_append,allNodes,allNodes,ih,Nat.add_assoc]

@[simp] theorem nodes_named (st : CString) (t : CJson) : nodes (t.named st) = nodes t := by
  cases t; simp [CJson.named,nodes]

theorem nodes_addItemToArray (t u : CJson) : nodes (t.addItemToArray u) = nodes t + nodes u := by
  cases t
  simp only [CJson.addItemToArray,nodes,allNodes_append,allNodes]
  omega

mutual

theorem Item.nodes_tree (t : Item) (ht : t.Owned) : nodes t.tree = t.size := by
  match t with
  | .mk _ _ _ _ _ _ ch => rw [Item.tree,nodes,Item.size,nodes_trees ch ht]
  | .reference _ _ _ _ _ _ _ => exact ht.elim

theorem nodes_trees (ts : List Item) (hts : AllOwned ts) : allNodes (trees ts) = sizes ts := by
  match ts with
  | [] => rfl
  | t :: ts => rw [trees,allNodes,sizes,t.nodes_tree hts.1,nodes_trees ts hts.2]

end

mutual

theorem Item.size_le_card (t : Item) (prev next : Ptr) : t.size ≤ (t.cells prev next).card := by
  match t with
  | .mk a ty vs vi vd st ch =>
    have h := sizes_le_card ch none none
    rw [Item.size,Item.cells,Item.owned,cell,Multiset.card_add,Multiset.card_add,Multiset.card_singleton]
    omega
  | .reference a ty vs vi vd st ch =>
    rw [Item.size,Item.cells,cell,Multiset.card_add,Multiset.card_singleton]
    omega

theorem sizes_le_card (ts : List Item) (prev next : Ptr) : sizes ts ≤ (chain prev next ts).card := by
  match ts with
  | [] => exact Nat.zero_le _
  | t :: ts =>
    have ht := t.size_le_card prev (headPtr next ts)
    have hts := sizes_le_card ts (some t.addr) next
    rw [sizes,chain_cons,Multiset.card_add]
    omega

end

theorem nodes_pos (t : CJson) : 1 ≤ nodes t := by
  cases t
  exact Nat.succ_pos _

theorem Stands.nodes_le_card {a : Addr} {t : CJson} {cs : Cells} (h : Stands a t cs) : nodes t ≤ cs.card := by
  obtain ⟨u,-,hu,rfl,rfl⟩ := h
  rw [u.nodes_tree hu]
  exact u.size_le_card none none

theorem Item.Owned.holds {u : Item} (h : u.Owned) :
    ∃ c ch, u = Container.holding c ch ∧ AllOwned ch := by
  cases u with
  | mk a ty vs vi vd st ch => exact ⟨⟨a,ty,vs,vi,vd,st⟩,ch,rfl,h⟩
  | reference a ty vs vi vd st ch => exact h.elim

theorem Container.tree_append (c : Container) (ch : List Item) (v : Item) :
    (c.holding (ch ++ [v])).tree = (c.holding ch).tree.addItemToArray v.tree := by
  simp only [Container.holding,Item.tree,CJson.addItemToArray,trees_append,trees]

theorem Item.tree_named (v : Item) (s : Addr × CString) (hv : v.Owned) :
    (v.named (some s)).tree = v.tree.named s.2 := by
  cases v with
  | mk a ty vs vi vd st ch => rfl
  | reference a ty vs vi vd st ch => exact hv.elim

theorem Item.owned_named_iff (v : Item) (name : Option Text) : (v.named name).Owned ↔ v.Owned := by
  cases v <;> rfl

theorem Copies.some {al : Allocator Addr Block} (hal : al.Total) {s : CString} {name : Option Text}
    (h : Copies al s name) : ∃ b, name = some (b,s) :=
  h.resolve_left fun h => h.2 hal

section model

variable (al : Allocator Addr Block) (fuel : ℕ) (p : Platform)

def addStringToObject (object : Ptr) (name s : CString) : Prog Unit := do
  let item ← createString al (.outside s)
  addItemToObject al fuel object (.outside name) item

def wsFormatHardwareParam (kind : HwDevKind) (jp : Ptr) (param : HwCache) : Prog Unit := do
  addStringToObject al fuel jp (CString.lit "kks") param.kksStr
  addStringToObject al fuel jp (CString.lit "ref") (Hardware.getParamRef param)
  addStringToObject al fuel jp (CString.lit "vtype") (getHwNameByType param.valType)
  addStringToObject al fuel jp (CString.lit "val") (p.getValStrUnit param (p.getVal kind param))
  addStringToObject al fuel jp (CString.lit "t") param.paramTimeStr

/-- The loop of `ws_format_hardware_data`: the caches it leaves and whether it reaches the end. -/
def formatFrom (kind : HwDevKind) (array : Ptr) :
    List (Option HwCache) → Prog (List (Option HwCache) × Bool)
  | [] => pure ([],true)
  | none :: ps => pure (none :: ps,false)
  | some pd :: ps =>
    if pd.status ≠ .uptare then do
      let r ← formatFrom kind array ps
      pure (some pd :: r.1,r.2)
    else do
      match ← createObject al with
      | none => pure (some pd :: ps,false)
      | some jparam =>
        let pd := Hardware.hwUsedCache pd
        wsFormatHardwareParam al fuel p kind (some jparam) pd
        addItemToArray fuel array (some jparam)
        let r ← formatFrom kind array ps
        pure (some pd :: r.1,r.2)

def addHeader (root : Ptr) (hwd : HwInfo) : Prog Unit := do
  addStringToObject al fuel root (CString.lit "name") hwd.nameStr
  addStringToObject al fuel root (CString.lit "id") hwd.idStr
  addStringToObject al fuel root (CString.lit "terminal") hwd.kindStr
  addStringToObject al fuel root (CString.lit "mtype") (CString.lit "MSGE")
  addStringToObject al fuel root (CString.lit "t") hwd.timeStr

/-- `ws_format_hardware_data`: what it stores in `*out`, and the caches. -/
def wsFormatHardwareData (kind : HwDevKind) (hwd : HwInfo) (pData : List (Option HwCache)) :
    Prog (Ptr × List (Option HwCache)) := do
  let json ← createObject al
  let root ← createObject al
  let array ← createArray al
  addHeader al fuel root hwd
  let r ← formatFrom al fuel p kind array pData
  if r.2 then do
    addItemToObject al fuel root (.outside (CString.lit "params")) array
    addItemToObject al fuel json (.outside (CString.lit "json")) root
    let out ← print al fuel p json
    delete fuel json
    pure (out,r.1)
  else pure (none,r.1)

end model

section standing

variable {al : Allocator Addr Block} {fuel : ℕ} {p : Platform} {a b : Addr} {t u : CJson} {cs cs' : Cells}

theorem create_stands (hal : al.Total) {f : Node → Node} {ty : CJsonType} {vi : ℤ} {vd : F64}
    (hf : f Node.zero = ⟨none,none,none,ty,false,none,vi,vd,none⟩) :
    Spec 0 (create al f) fun r cs => ∃ a, r = some a ∧ Stands a (.mk ty none vi vd none []) cs := by
  refine (create_spec al hf).mono ?_
  rintro r cs (⟨-,h,-⟩ | ⟨_,hr,⟨b,rfl⟩,rfl⟩)
  · exact absurd hal h
  · exact ⟨_,hr,_,rfl,trivial,rfl,rfl⟩

theorem createObject_stands (hal : al.Total) :
    Spec 0 (createObject al) fun r cs => ∃ a, r = some a ∧ Stands a .createObject cs :=
  create_stands hal rfl

theorem createArray_stands (hal : al.Total) :
    Spec 0 (createArray al) fun r cs => ∃ a, r = some a ∧ Stands a .createArray cs :=
  create_stands hal rfl

theorem addItemToArray_stands (ht : Stands a t cs) (hu : Stands b u cs') (hf : nodes t ≤ fuel) :
    Spec (cs + cs') (addItemToArray fuel (some a) (some b)) fun _ cs => Stands a (t.addItemToArray u) cs := by
  obtain ⟨x,rfl,hx,rfl,rfl⟩ := ht
  obtain ⟨y,rfl,hy,rfl,rfl⟩ := hu
  rw [x.nodes_tree hx] at hf
  obtain ⟨c,ch,rfl,hch⟩ := hx.holds
  have hlen : ch.length ≤ fuel := by
    have h := length_le_sizes ch
    simp only [Container.holding,Item.size] at hf
    omega
  rw [c.holding_cells]
  refine Spec.tail (addItemToArray_spec c.addr (c.node none none) hlen y)
    (show _ = _ + (textCells c.valuestring + textCells c.string) by abel) ?_
  rintro _ _ rfl
  exact ⟨c.holding (ch ++ [y]),rfl,allOwned_append hch ⟨hy,trivial⟩,c.tree_append ch y,
    (c.holding_cells none none _).symm⟩

theorem addItemToObject_stands (hal : al.Total) (ht : Stands a t cs) (hu : Stands b u cs')
    (hf : nodes t ≤ fuel) (name : CString) :
    Spec (cs + cs') (addItemToObject al fuel (some a) (.outside name) (some b))
      fun _ cs => Stands a (t.addItemToObject name u) cs := by
  obtain ⟨x,rfl,hx,rfl,rfl⟩ := ht
  obtain ⟨y,rfl,hy,rfl,rfl⟩ := hu
  rw [x.nodes_tree hx] at hf
  obtain ⟨c,ch,rfl,hch⟩ := hx.holds
  have hlen : ch.length ≤ fuel := by
    have h := length_le_sizes ch
    simp only [Container.holding,Item.size] at hf
    omega
  rw [c.holding_cells]
  refine Spec.tail (addItemToObject_spec c.addr (c.node none none) al (outside_reads name) hlen y)
    (show _ = _ + (textCells c.valuestring + textCells c.string) by abel) ?_
  rintro _ _ ⟨st,hst,rfl⟩
  obtain ⟨d,rfl⟩ := hst.some hal
  refine ⟨c.holding (ch ++ [y.named (some (d,name))]),rfl,
    allOwned_append hch ⟨(y.owned_named_iff _).mpr hy,trivial⟩,?_,?_⟩
  · rw [c.tree_append,y.tree_named (d,name) hy,CJson.addItemToObject]
  · rw [c.holding_cells,add_zero]

theorem createString_stands (hal : al.Total) (s : CString) :
    Spec 0 (createString al (.outside s)) fun r cs => ∃ a, r = some a ∧ Stands a (.createString s) cs := by
  refine (createString_spec al (outside_reads s)).mono ?_
  rintro r _ ⟨made,rfl,⟨-,h,-⟩ | ⟨_,hr,⟨b,vs,hvs,rfl⟩,rfl⟩⟩
  · exact absurd hal h
  · obtain ⟨d,rfl⟩ := hvs.some hal
    exact ⟨_,hr,_,rfl,trivial,rfl,add_zero _⟩

theorem addStringToObject_stands (hal : al.Total) (ht : Stands a t cs) (hf : nodes t ≤ fuel)
    (name s : CString) : Spec cs (addStringToObject al fuel (some a) name s)
      fun _ cs => Stands a (t.addStringToObject name s) cs := by
  refine Spec.call (createString_stands hal s) (zero_add _).symm ?_
  rintro _ made ⟨b,rfl,hb⟩
  rw [add_comm]
  exact addItemToObject_stands hal ht hb hf name

theorem delete_stands (ht : Stands a t cs) (hf : nodes t < fuel) :
    Spec cs (delete fuel (some a)) fun _ cs => cs = 0 := by
  obtain ⟨x,rfl,hx,rfl,rfl⟩ := ht
  rw [x.nodes_tree hx] at hf
  have h := delete_spec [x] (by simpa [sizes] using hf) none
  rwa [chain_singleton] at h

theorem print_stands (hal : al.Total) (ht : Stands a t cs) (hf : nodes t < fuel)
    (hmax : (t.print p).length ≤ PRINT_MAX) :
    Spec cs (print al fuel p (some a)) fun r cs' => ∃ b, r = some b ∧
      cs' = cell b (.text ⟨t.print p,CJson.zero_notMem_printValue p true 0 t⟩) + cs := by
  obtain ⟨x,rfl,hx,rfl,rfl⟩ := ht
  rw [x.nodes_tree hx] at hf
  refine (print_spec x hx hf hmax none none).mono ?_
  rintro _ _ ⟨_,rfl,_,hcopy,rfl,rfl⟩
  obtain ⟨b,rfl⟩ := hcopy.some hal
  exact ⟨b,rfl,rfl⟩

theorem nodes_addStringToObject (t : CJson) (name s : CString) :
    nodes (t.addStringToObject name s) = nodes t + 1 := by
  rw [CJson.addStringToObject,CJson.addItemToObject,nodes_addItemToArray,nodes_named]
  rfl

theorem wsFormatHardwareParam_stands (hal : al.Total) (ht : Stands a t cs) (hf : nodes t + 4 ≤ fuel)
    (kind : HwDevKind) (param : HwCache) :
    Spec cs (wsFormatHardwareParam al fuel p kind (some a) param)
      fun _ cs => Stands a (Report.wsFormatHardwareParam p kind t param) cs := by
  refine (addStringToObject_stands hal ht (by omega) _ _).bind fun _ _ h₁ => ?_
  refine (addStringToObject_stands hal h₁ (by rw [nodes_addStringToObject]; omega) _ _).bind fun _ _ h₂ => ?_
  refine (addStringToObject_stands hal h₂ (by simp only [nodes_addStringToObject]; omega) _ _).bind
    fun _ _ h₃ => ?_
  refine (addStringToObject_stands hal h₃ (by simp only [nodes_addStringToObject]; omega) _ _).bind
    fun _ _ h₄ => ?_
  exact addStringToObject_stands hal h₄ (by simp only [nodes_addStringToObject]; omega) _ _

theorem nodes_wsFormatHardwareParam (kind : HwDevKind) (t : CJson) (param : HwCache) :
    nodes (Report.wsFormatHardwareParam p kind t param) = nodes t + 5 := by
  simp only [Report.wsFormatHardwareParam,nodes_addStringToObject]

/-- The loop on the heap does to the array and the caches what the loop on trees does. -/
theorem formatFrom_stands (hal : al.Total) (kind : HwDevKind) (ps : List (Option HwCache)) (i : ℕ)
    (ht : Stands a t cs) (hf : nodes t + 6 * ps.length + 5 ≤ fuel) :
    Spec cs (formatFrom al fuel p kind (some a) ps) fun r cs' =>
      r.1 = (Report.formatFrom p kind (fun _ => true) i t ps).1 ∧
      ∃ t', Stands a t' cs' ∧ nodes t' ≤ nodes t + 6 * ps.length ∧
        (Report.formatFrom p kind (fun _ => true) i t ps).2 = if r.2 then some t' else none := by
  induction ps generalizing t cs i with
  | nil => exact Spec.pure ⟨rfl,t,ht,le_refl _,rfl⟩
  | cons q ps ih =>
    rw [List.length_cons] at hf
    cases q with
    | none => exact Spec.pure ⟨rfl,t,ht,by omega,rfl⟩
    | some pd =>
      rw [formatFrom,Report.formatFrom]
      by_cases hst : pd.status ≠ .uptare
      · rw [if_pos hst,if_pos hst]
        refine (ih (i + 1) ht (by omega)).bind ?_
        rintro r cs' ⟨hr,t',ht',hn,hout⟩
        exact Spec.pure ⟨congrArg _ hr,t',ht',by rw [List.length_cons]; omega,hout⟩
      · rw [if_neg hst,if_neg hst,if_pos rfl]
        refine Spec.call (createObject_stands hal) (zero_add _).symm ?_
        rintro _ own ⟨b,rfl,hb⟩
        have hone : nodes .createObject = 1 := rfl
        refine Spec.call (wsFormatHardwareParam_stands hal hb (by rw [hone]; omega) kind
          (Hardware.hwUsedCache pd)) rfl ?_
        rintro _ own' hb'
        rw [add_comm]
        refine (addItemToArray_stands ht hb' (by omega)).bind ?_
        intro _ cs' hadd
        have hnodes : nodes (t.addItemToArray (Report.wsFormatHardwareParam p kind .createObject
            (Hardware.hwUsedCache pd))) = nodes t + 6 := by
          rw [nodes_addItemToArray,nodes_wsFormatHardwareParam,hone]
        refine (ih (i + 1) hadd (by omega)).bind ?_
        rintro r cs'' ⟨hr,t',ht',hn,hout⟩
        exact Spec.pure ⟨congrArg _ hr,t',ht',by rw [List.length_cons]; omega,hout⟩

def header (hwd : HwInfo) : CJson :=
  ((((CJson.createObject.addStringToObject (CString.lit "name") hwd.nameStr).addStringToObject
    (CString.lit "id") hwd.idStr).addStringToObject (CString.lit "terminal") hwd.kindStr).addStringToObject
      (CString.lit "mtype") (CString.lit "MSGE")).addStringToObject (CString.lit "t") hwd.timeStr

theorem nodes_header (hwd : HwInfo) : nodes (header hwd) = 6 := by
  simp only [header,nodes_addStringToObject]
  rfl

theorem wrap_eq (hwd : HwInfo) (array : CJson) : Report.wrap hwd array =
    CJson.createObject.addItemToObject (CString.lit "json")
      ((header hwd).addItemToObject (CString.lit "params") array) := rfl

theorem addHeader_stands (hal : al.Total) (ht : Stands a .createObject cs) (hf : 5 ≤ fuel) (hwd : HwInfo) :
    Spec cs (addHeader al fuel (some a) hwd) fun _ cs => Stands a (header hwd) cs := by
  have hone : nodes .createObject = 1 := rfl
  refine (addStringToObject_stands hal ht (by omega) _ _).bind fun _ _ h₁ => ?_
  refine (addStringToObject_stands hal h₁ (by rw [nodes_addStringToObject]; omega) _ _).bind fun _ _ h₂ => ?_
  refine (addStringToObject_stands hal h₂ (by simp only [nodes_addStringToObject]; omega) _ _).bind
    fun _ _ h₃ => ?_
  refine (addStringToObject_stands hal h₃ (by simp only [nodes_addStringToObject]; omega) _ _).bind
    fun _ _ h₄ => ?_
  exact addStringToObject_stands hal h₄ (by simp only [nodes_addStringToObject]; omega) _ _

/-- What a report leaves on the heap: its text, or the trees built so far when a slot holds no
cache. -/
def Residue (p : Platform) (hwd : HwInfo) (array : Option CJson) (out : Ptr) (cs : Cells) : Prop :=
  match array with
  | some array => ∃ b, out = some b ∧ cs = cell b (.text ⟨(Report.wrap hwd array).print p,
      CJson.zero_notMem_printValue p true 0 _⟩)
  | none => out = none ∧ ∃ a b c cs₁ cs₂ cs₃ array, cs = cs₁ + cs₂ + cs₃ ∧ Stands a .createObject cs₁ ∧
      Stands b (header hwd) cs₂ ∧ Stands c array cs₃

theorem formatFrom_complete (kind : HwDevKind) {pData : List (Option HwCache)} (h : none ∉ pData)
    (i : ℕ) (array : CJson) :
    ∃ t, (Report.formatFrom p kind (fun _ => true) i array pData).2 = some t := by
  induction pData generalizing i array with
  | nil => exact ⟨array,rfl⟩
  | cons q ps ih =>
    have hps : none ∉ ps := fun hn => h (List.mem_cons_of_mem q hn)
    cases q with
    | none => exact absurd List.mem_cons_self h
    | some pd =>
      rw [Report.formatFrom]
      split
      · exact ih hps (i + 1) array
      · exact ih hps (i + 1) _

theorem formatFrom_incomplete (kind : HwDevKind) {pData : List (Option HwCache)} (h : none ∈ pData)
    (i : ℕ) (array : CJson) :
    (Report.formatFrom p kind (fun _ => true) i array pData).2 = none := by
  induction pData generalizing i array with
  | nil => cases h
  | cons q ps ih =>
    cases q with
    | none => rfl
    | some pd =>
      have hps : none ∈ ps := by simpa using h
      rw [Report.formatFrom]
      split
      · exact ih hps (i + 1) array
      · exact ih hps (i + 1) _

theorem formatFrom_out (kind : HwDevKind) (hwd : HwInfo) {pData : List (Option HwCache)} {array : CJson}
    (h : (Report.formatFrom p kind (fun _ => true) 0 .createArray pData).2 = some array) :
    ∃ ps : List HwCache, pData = ps.map some ∧
      (Report.wrap hwd array).print p = (Report.docOf p kind hwd ps).toJson.print p := by
  have hnone : none ∉ pData := by
    intro hn
    rw [formatFrom_incomplete kind hn] at h
    cases h
  have hsome : ∀ q ∈ pData, q.isSome := fun q hq => Option.isSome_iff_ne_none.mpr fun hn => hnone (hn ▸ hq)
  obtain ⟨ps,rfl⟩ : ∃ ps : List HwCache, pData = ps.map some := by
    refine ⟨pData.attach.map fun q => q.1.get (hsome q.1 q.2),?_⟩
    rw [List.map_map]
    simp
  refine ⟨ps,rfl,?_⟩
  have halloc (i : ℕ) : (fun _ : ℕ => true) i = true := rfl
  have hout := congrArg Report.Formatted.out (Report.wsFormatHardwareData_map p halloc kind hwd ps)
  rw [Report.wsFormatHardwareData] at hout
  dsimp only at hout
  rw [h] at hout
  exact Option.some.inj hout

theorem wsFormatHardwareData_spec (hal : al.Total) (kind : HwDevKind) (hwd : HwInfo)
    (pData : List (Option HwCache)) (hf : 6 * pData.length + 8 < fuel) (hslots : pData.length < 2^16) :
    Spec 0 (wsFormatHardwareData al fuel p kind hwd pData) fun r cs =>
      r.2 = (Report.formatFrom p kind (fun _ => true) 0 .createArray pData).1 ∧
      Residue p hwd (Report.formatFrom p kind (fun _ => true) 0 .createArray pData).2 r.1 cs := by
  have hone : nodes .createArray = 1 := rfl
  have hone' : nodes .createObject = 1 := rfl
  have hheader := nodes_header hwd
  refine (createObject_stands hal).bind ?_
  rintro _ cs₁ ⟨a,rfl,ha⟩
  refine Spec.call (createObject_stands hal) (zero_add _).symm ?_
  rintro _ cs₂ ⟨b,rfl,hb⟩
  refine Spec.call (createArray_stands hal) (zero_add _).symm ?_
  rintro _ cs₃ ⟨c,rfl,hc⟩
  refine Spec.call (addHeader_stands hal hb (by omega) hwd) (show _ = _ + (cs₃ + cs₁) by abel) ?_
  intro _ cs₂' hb'
  refine Spec.call (formatFrom_stands hal kind pData 0 hc (by omega)) (show _ = _ + (cs₂' + cs₁) by abel) ?_
  rintro ⟨caches,whole⟩ cs₃' ⟨hcaches,array,hc',hn,hout⟩
  dsimp only at hcaches hout
  rw [hout]
  cases whole with
  | false =>
    refine Spec.pure ⟨hcaches,rfl,a,b,c,cs₁,cs₂',cs₃',array,by abel,ha,hb',hc'⟩
  | true =>
    refine Spec.call (addItemToObject_stands hal hb' hc' (by omega) (CString.lit "params"))
      (show _ = _ + cs₁ by abel) ?_
    intro _ cs₄ hroot
    rw [add_comm]
    refine (addItemToObject_stands hal ha hroot (by omega) (CString.lit "json")).bind ?_
    intro _ cs₅ hjson
    rw [← wrap_eq] at hjson
    have hnodes : nodes (Report.wrap hwd array) < fuel := by
      rw [wrap_eq,CJson.addItemToObject,nodes_addItemToArray,nodes_named,CJson.addItemToObject,
        nodes_addItemToArray,nodes_named]
      omega
    obtain ⟨ps,rfl,htext⟩ := formatFrom_out kind hwd hout
    have hmax : ((Report.wrap hwd array).print p).length ≤ PRINT_MAX := by
      rw [htext]
      rw [List.length_map] at hslots
      exact FrameSize.docOf_length_le p kind hwd hslots
    refine (print_stands hal hjson hnodes hmax).bind ?_
    rintro _ _ ⟨d,rfl,rfl⟩
    refine Spec.call (delete_stands hjson hnodes) (add_comm _ _) ?_
    rintro _ _ rfl
    rw [zero_add]
    exact Spec.pure ⟨hcaches,d,rfl,rfl⟩

/-- When no allocation fails and there is a `uint16_t` of slots, a call on any heap either returns the
text of the report and nothing else of it stays, or a slot without a cache ends it early and the three
trees that it has built stay with nobody to free them. -/
theorem report_on_heap (al : Allocator Addr Block) (hal : al.Total) (fuel : ℕ) (p : Platform)
    (kind : HwDevKind) (hwd : HwInfo) (pData : List (Option HwCache)) (hf : 6 * pData.length + 8 < fuel)
    (hslots : pData.length < 2^16) (rest : Cells) (heap : Heap Addr Block) (hheap : Holds heap rest) :
    ∃ out caches heap' own,
      wsFormatHardwareData al fuel p kind hwd pData heap = some ((out,caches),heap') ∧
      Holds heap' (own + rest) ∧
      (Report.wsFormatHardwareData p kind (fun _ => true) hwd (some pData)).pData = some caches ∧
      (none ∉ pData ∧ (∃ b s, out = some b ∧ own = cell b (.text s) ∧
          (Report.wsFormatHardwareData p kind (fun _ => true) hwd (some pData)).out = some s.bytes) ∨
        none ∈ pData ∧ out = none ∧ 8 ≤ own.card) := by
  obtain ⟨⟨out,caches⟩,heap',own,hrun,⟨hcaches,hres⟩,hh⟩ :=
    wsFormatHardwareData_spec (p := p) hal kind hwd pData hf hslots rest heap (by rwa [zero_add])
  refine ⟨out,caches,heap',own,hrun,hh,congrArg some hcaches.symm,?_⟩
  by_cases hnone : none ∈ pData
  · rw [formatFrom_incomplete kind hnone] at hres
    obtain ⟨hout,a,b,c,cs₁,cs₂,cs₃,array,rfl,ha,hb,hc⟩ := hres
    refine Or.inr ⟨hnone,hout,?_⟩
    have h₁ : 1 ≤ cs₁.card := ha.nodes_le_card
    have h₂ : 6 ≤ cs₂.card := nodes_header hwd ▸ hb.nodes_le_card
    have h₃ : 1 ≤ cs₃.card := (nodes_pos array).trans hc.nodes_le_card
    rw [Multiset.card_add,Multiset.card_add]
    omega
  · obtain ⟨t,ht⟩ := formatFrom_complete (p := p) kind hnone 0 .createArray
    rw [ht] at hres
    obtain ⟨b,hout,hown⟩ := hres
    refine Or.inl ⟨hnone,b,_,hout,hown,?_⟩
    rw [Report.wsFormatHardwareData]
    dsimp only
    rw [ht]
    rfl

theorem report_on_heap_zero : ∃ out caches heap' own,
    wsFormatHardwareData (.first Block) 15 .sample .cur .zero [some .zero] ⟨fun _ => none,0⟩ =
      some ((out,caches),heap') ∧
    Holds heap' (own + 0) ∧
    (Report.wsFormatHardwareData .sample .cur (fun _ => true) .zero (some [some .zero])).pData = some caches ∧
    (none ∉ [some HwCache.zero] ∧ (∃ b s, out = some b ∧ own = cell b (.text s) ∧
        (Report.wsFormatHardwareData .sample .cur (fun _ => true) .zero (some [some .zero])).out = some s.bytes) ∨
      none ∈ [some HwCache.zero] ∧ out = none ∧ 8 ≤ own.card) :=
  report_on_heap (.first Block) (Allocator.first_total Block) 15 .sample .cur .zero [some .zero] (by decide)
    (by decide) 0 _ (.empty 0)

end standing

end CJsonHeap
end WddProc
