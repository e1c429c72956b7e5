import WddProc.CJsonArrays

/-!
# Duplicating an item

`cJSON_Duplicate` copies a tree node by node. When the memory runs out it deletes what it
has made, so that nothing is left over.
-/

namespace WddProc
namespace CJsonHeap

open OwnedHeap

variable (al : Allocator Addr Block) (fuel : ℕ)

/-- The variables of `n` that are not pointers, without the flag of a reference. -/
def copyVars (n newitem : Node) : Node :=
  ⟨newitem.next,newitem.prev,newitem.child,n.type,false,newitem.valuestring,n.valueint,n.valuedouble,
    newitem.string⟩

/-- `if (p) newitem->… = cJSON_strdup(p);`, and whether that worked. -/
def copyText (newitem : Addr) (p : Ptr) (set : Ptr → Node → Node) : Prog Bool :=
  match p with
  | none => pure true
  | some a => do
    let q ← strdup al (.block a)
    modifyNode (some newitem) (set q)
    pure q.isSome

def giveUp (newitem : Addr) : Prog Ptr := do
  delete fuel (some newitem)
  pure none

mutual

def duplicate : ℕ → Ptr → Bool → Prog Ptr
  | 0, _, _ => Prog.fault
  | _+1, none, _ => pure none
  | f+1, some item, recurse => do
    match ← newItem al with
    | none => pure none
    | some newitem =>
      let n ← readNode (some item)
      modifyNode (some newitem) (copyVars n)
      if ← copyText al newitem n.valuestring (fun q m => { m with valuestring := q }) then
        if ← copyText al newitem n.string (fun q m => { m with string := q }) then
          if recurse then duplicateChildren f newitem n.child none
          else pure (some newitem)
        else giveUp fuel newitem
      else giveUp fuel newitem

/-- The walk over the `next` chain of the children; `nptr` is the child made last. -/
def duplicateChildren : ℕ → Addr → Ptr → Ptr → Prog Ptr
  | 0, _, _, _ => Prog.fault
  | _+1, newitem, none, _ => pure (some newitem)
  | f+1, newitem, some cptr, nptr => do
    match ← duplicate f (some cptr) true with
    | none => giveUp fuel newitem
    | some newchild =>
      (if nptr.isSome then suffixObject nptr (some newchild)
      else modifyNode (some newitem) fun m => { m with child := some newchild })
      let c ← readNode (some cptr)
      duplicateChildren f newitem c.next (some newchild)

end

mutual

/-- There are no references in a tree. -/
def Item.Owned : Item → Prop
  | .mk _ _ _ _ _ _ ch => AllOwned ch
  | .reference _ _ _ _ _ _ _ => False

def AllOwned : List Item → Prop
  | [] => True
  | t :: ts => t.Owned ∧ AllOwned ts

end

/-- Another tree of the same shape and contents. -/
def Copy (t u : Item) : Prop := u.tree = t.tree ∧ u.size = t.size ∧ u.Owned

theorem copyText_spec {α : Type} {newitem : Addr} {m : Node} {set : Ptr → Node → Node}
    {x : Option Text} {pre cs : Cells} {k : Bool → Prog α} {goal : α → Cells → Prop}
    (hpre : pre = cell newitem (.node m) + (textCells x + cs))
    (hset : set none m = m)
    (hfail : ¬ al.Total → Spec pre (k false) goal)
    (hk : ∀ copy : Option Text, copy.map Prod.snd = x.map Prod.snd →
      Spec (cell newitem (.node (set (textPtr copy) m)) + (textCells copy + (textCells x + cs)))
        (k true) goal) :
    Spec pre (copyText al newitem (textPtr x) set >>= k) goal := by
  subst hpre
  cases x with
  | none =>
    have h := hk none rfl
    rw [show set (textPtr none) m = m from hset] at h
    simpa [copyText,textPtr,textCells] using h
  | some x =>
    change Spec _ ((strdup al (.block x.1) >>= fun q => modifyNode (some newitem) (set q) >>= fun _ =>
      pure q.isSome) >>= k) goal
    rw [bind_assoc]
    refine strdup_spec al (show CharPtr.Reads x.2 (.block x.1) (cell x.1 (.text x.2)) from rfl)
      (add_left_comm _ _ _) fun copy hcopy => ?_
    rw [bind_assoc]
    refine modifyNode_spec (add_left_comm _ _ _) ?_
    rcases hcopy with ⟨rfl,ht⟩ | ⟨b,rfl⟩
    · have h := hfail ht
      rw [← hset] at h
      simpa [textPtr,textCells] using h
    · have h := hk (some (b,x.2)) rfl
      simpa [textPtr] using h

theorem giveUp_spec {goal : Ptr → Cells → Prop} {pre cs : Cells} (u : Item) (hu : u.size < fuel)
    (hpre : pre = u.cells none none + cs) (hgoal : goal none cs) :
    Spec pre (giveUp fuel u.addr) goal := by
  refine Spec.call (delete_spec [u] (by simpa [sizes] using hu) none)
    (by rw [chain_singleton]; exact hpre) ?_
  rintro _ _ rfl
  rw [zero_add]
  exact Spec.pure hgoal

theorem duplicate_head {f : ℕ} {recurse : Bool} {P : Item → Prop} (a : Addr) (ty : CJsonType)
    (vs : Option Text) (vi : ℤ) (vd : F64) (st : Option Text) (ch : List Item) (prev next : Ptr)
    (hfuel : 1 < fuel)
    (hk : ∀ b vs' st', vs'.map Prod.snd = vs.map Prod.snd → st'.map Prod.snd = st.map Prod.snd →
      Spec ((Item.mk b ty vs' vi vd st' []).cells none none + (Item.mk a ty vs vi vd st ch).cells prev next)
        (if recurse then duplicateChildren al fuel f b (headPtr none ch) none else pure (some b))
        fun r cs => ∃ own, cs = own + (Item.mk a ty vs vi vd st ch).cells prev next ∧ Makes al P r own) :
    Spec ((Item.mk a ty vs vi vd st ch).cells prev next)
      (duplicate al fuel (f + 1) (some a) recurse)
      fun r cs => ∃ own, cs = own + (Item.mk a ty vs vi vd st ch).cells prev next ∧ Makes al P r own := by
  set t := Item.mk a ty vs vi vd st ch with ht
  have hnode (b : Addr) (vs' st' : Option Text) : (Item.mk b ty vs' vi vd st' []).cells none none =
      cell b (.node ⟨none,none,none,ty,false,textPtr vs',vi,vd,textPtr st'⟩) +
        (textCells vs' + textCells st') := by
    rw [Item.cells,Item.owned,chain_nil,add_zero]
    rfl
  have hfail (b : Addr) (vs' st' : Option Text) (hal : ¬ al.Total) :
      Spec ((Item.mk b ty vs' vi vd st' []).cells none none + t.cells prev next) (giveUp fuel b)
        fun r cs => ∃ own, cs = own + t.cells prev next ∧ Makes al P r own :=
    giveUp_spec fuel (.mk b ty vs' vi vd st' []) (by simpa [Item.size,sizes] using hfuel) rfl
      ⟨0,(zero_add _).symm,Or.inl ⟨rfl,hal,rfl⟩⟩
  rw [duplicate]
  refine Spec.malloc (fun hal => Spec.pure ⟨0,(zero_add _).symm,Or.inl ⟨rfl,hal,rfl⟩⟩) fun b => ?_
  refine readNode_spec (show _ = cell a (.node (t.node prev next)) + (t.owned +
    cell b (.node Node.zero)) by rw [Item.cells,ht,Item.addr]; abel) ?_
  refine modifyNode_spec rfl ?_
  refine copyText_spec al (x := vs) (show _ = _ + (textCells vs + (cell a (.node (t.node prev next)) +
    textCells st + chain none none ch)) by rw [Item.cells,ht,Item.owned,Item.addr]; abel) rfl
    (fun hal => ?_) fun vs' hvs => ?_
  · refine Spec.congr ?_ (hfail b none none hal)
    rw [hnode,textCells,add_zero,add_zero]
    rfl
  refine copyText_spec al (x := st) (show _ = _ + (textCells st + (cell a (.node (t.node prev next)) +
    textCells vs + chain none none ch + textCells vs')) by abel) rfl (fun hal => ?_) fun st' hst => ?_
  · refine Spec.congr ?_ (hfail b vs' none hal)
    rw [hnode,Item.cells,ht,Item.owned,Item.addr,textCells,add_zero]
    change cell b (Block.node ⟨none,none,none,ty,false,textPtr vs',vi,vd,none⟩) + _ = _
    simp only [textPtr,Option.map_none]
    abel
  · refine Spec.congr ?_ (hk b vs' st' hvs hst)
    rw [hnode,Item.cells,ht,Item.owned,Item.addr]
    change cell b (Block.node ⟨none,none,none,ty,false,textPtr vs',vi,vd,textPtr st'⟩) + _ = _
    abel

theorem Item.size_pos (t : Item) : 0 < t.size := by
  cases t <;> simp only [Item.size] <;> omega

theorem length_le_sizes (ts : List Item) : ts.length ≤ sizes ts := by
  induction ts with
  | nil => exact Nat.zero_le _
  | cons t ts ih =>
    have ht := t.size_pos
    rw [List.length_cons,sizes]
    omega

theorem sizes_append (ts us : List Item) : sizes (ts ++ us) = sizes ts + sizes us := by
  induction ts with
  | nil => simp [sizes]
  | cons t ts ih => rw [List.cons_append,sizes,sizes,ih,Nat.add_assoc]

theorem trees_append (ts us : List Item) : trees (ts ++ us) = trees ts ++ trees us := by
  simp [trees_eq]

theorem allOwned_append {ts us : List Item} (hts : AllOwned ts) (hus : AllOwned us) :
    AllOwned (ts ++ us) := by
  induction ts with
  | nil => exact hus
  | cons t ts ih => exact ⟨hts.1,ih hts.2⟩

theorem linkChild_spec (b : Addr) (ty : CJsonType) (vs : Option Text) (vi : ℤ) (vd : F64)
    (st : Option Text) (done : List Item) (u : Item) :
    Spec ((Item.mk b ty vs vi vd st done).cells none none + u.cells none none)
      (if (lastPtr none done).isSome then suffixObject (lastPtr none done) (some u.addr)
      else modifyNode (some b) fun m => { m with child := some u.addr })
      fun _ cs => cs = (Item.mk b ty vs vi vd st (done ++ [u])).cells none none := by
  let n : Node := ⟨none,none,none,ty,false,textPtr vs,vi,vd,textPtr st⟩
  have hcells (ts : List Item) : (Item.mk b ty vs vi vd st ts).cells none none =
      family b n ts + (textCells vs + textCells st) := by
    rw [Item.cells,Item.owned,family,Item.addr,Item.node]
    abel
  have hlink : Spec (family b n done + u.cells none none)
      (if (lastPtr none done).isSome then suffixObject (lastPtr none done) (some u.addr)
      else modifyNode (some b) fun m => { m with child := some u.addr })
      fun _ cs => cs = family b n (done ++ [u]) := by
    rcases List.eq_nil_or_concat' done with rfl | ⟨ts,t,rfl⟩
    · exact firstChild_spec b n u
    · rw [if_pos (by rw [lastPtr_append]; rfl)]
      exact suffixObject_spec b n (by simp) u
  refine Spec.tail hlink (show _ = _ + (textCells vs + textCells st) by rw [hcells]; abel) ?_
  rintro _ _ rfl
  exact (hcells _).symm

def ListCopy (ts us : List Item) : Prop := trees us = trees ts ∧ sizes us = sizes ts ∧ AllOwned us

theorem duplicates_spec (f : ℕ) :
    (∀ (t : Item) (prev next : Ptr), t.Owned → 2 * t.size ≤ f → t.size < fuel →
      Spec (t.cells prev next) (duplicate al fuel f (some t.addr) true)
        fun r cs => ∃ own, cs = own + t.cells prev next ∧ Makes al (Copy t) r own) ∧
    ∀ (b : Addr) (ty : CJsonType) (vs : Option Text) (vi : ℤ) (vd : F64) (st : Option Text)
      (done rest : List Item) (prev : Ptr), AllOwned rest → 2 * sizes rest + 1 ≤ f →
      sizes done + 1 + sizes rest < fuel →
      Spec ((Item.mk b ty vs vi vd st done).cells none none + chain prev none rest)
        (duplicateChildren al fuel f b (headPtr none rest) (lastPtr none done))
        fun r cs => ∃ own, cs = own + chain prev none rest ∧
          Makes al (fun u => ∃ us, ListCopy rest us ∧ u = .mk b ty vs vi vd st (done ++ us)) r own := by
  induction f with
  | zero => exact ⟨fun t _ _ _ h => absurd h (by have := t.size_pos; omega),
      fun _ _ _ _ _ _ _ _ _ _ h => absurd h (by omega)⟩
  | succ f ih =>
    obtain ⟨ihitem,ihchildren⟩ := ih
    refine ⟨fun t prev next ht hf hfuel => ?_,
      fun b ty vs vi vd st done rest prev hrest hf hfuel => ?_⟩
    · cases t with
      | reference a ty vs vi vd st ch => exact ht.elim
      | mk a ty vs vi vd st ch =>
        simp only [Item.size] at hf hfuel
        refine duplicate_head al fuel a ty vs vi vd st ch prev next (by omega)
          fun b vs' st' hvs hst => ?_
        have hcells : (Item.mk a ty vs vi vd st ch).cells prev next = chain none none ch +
            (cell a (.node ((Item.mk a ty vs vi vd st ch).node prev next)) + textCells vs +
              textCells st) := by
          rw [Item.cells,Item.owned,Item.addr]
          abel
        refine Spec.tail (ihchildren b ty vs' vi vd st' [] ch none ht (by omega) (by simp [sizes]; omega))
          (show _ = _ + (cell a (.node ((Item.mk a ty vs vi vd st ch).node prev next)) + textCells vs +
            textCells st) by rw [hcells]; exact (add_assoc _ _ _).symm) ?_
        rintro r _ ⟨own,rfl,hr⟩
        refine ⟨own,by rw [hcells,add_assoc],?_⟩
        rcases hr with hr | ⟨u,hr,⟨us,⟨htrees,hsizes,howned⟩,rfl⟩,hown⟩
        · exact Or.inl hr
        · refine Or.inr ⟨_,hr,⟨?_,?_,howned⟩,hown⟩
          · simp only [Item.tree,hvs,hst,List.nil_append,htrees]
          · simp only [Item.size,List.nil_append,hsizes]
    · cases rest with
      | nil =>
        refine Spec.pure ⟨_,rfl,Or.inr ⟨.mk b ty vs vi vd st done,rfl,⟨[],⟨rfl,rfl,trivial⟩,?_⟩,rfl⟩⟩
        rw [List.append_nil]
      | cons c rest =>
        have hc := c.size_pos
        simp only [sizes] at hf hfuel
        set w := Item.mk b ty vs vi vd st done with hw
        have hchain : chain prev none (c :: rest) = c.cells prev (headPtr none rest) +
            chain (some c.addr) none rest := chain_cons prev none c rest
        rw [headPtr_cons,duplicateChildren,hchain]
        refine Spec.call (ihitem c prev (headPtr none rest) hrest.1 (by omega) (by omega))
          (show _ = _ + (w.cells none none + chain (some c.addr) none rest) by abel) ?_
        rintro r _ ⟨own,rfl,⟨rfl,hal,rfl⟩ | ⟨u,rfl,hu,rfl⟩⟩
        · refine giveUp_spec fuel w (by simp only [hw,Item.size]; omega) (show _ = _ +
            (c.cells prev (headPtr none rest) + chain (some c.addr) none rest) by abel) ?_
          exact ⟨0,(zero_add _).symm,Or.inl ⟨rfl,hal,rfl⟩⟩
        · refine Spec.call (linkChild_spec b ty vs vi vd st done u) (show _ = _ +
            (c.cells prev (headPtr none rest) + chain (some c.addr) none rest) by abel) ?_
          rintro _ _ rfl
          have hnode : c.cells prev (headPtr none rest) =
              cell c.addr (.node (c.node prev (headPtr none rest))) + c.owned := rfl
          refine readNode_spec (show _ = cell c.addr (.node (c.node prev (headPtr none rest))) +
            (c.owned + ((Item.mk b ty vs vi vd st (done ++ [u])).cells none none +
              chain (some c.addr) none rest)) by rw [hnode]; abel) ?_
          rw [Item.node_next]
          have hrec := ihchildren b ty vs vi vd st (done ++ [u]) rest (some c.addr) hrest.2 (by omega)
            (by rw [sizes_append,sizes,sizes,hu.2.1]; omega)
          rw [lastPtr_append] at hrec
          refine Spec.tail hrec (show _ = _ + c.cells prev (headPtr none rest) by abel) ?_
          rintro r _ ⟨own,rfl,hr⟩
          refine ⟨own,by abel,?_⟩
          rcases hr with hr | ⟨x,hr,⟨us,⟨htrees,hsizes,howned⟩,rfl⟩,hown⟩
          · exact Or.inl hr
          · refine Or.inr ⟨_,hr,⟨u :: us,⟨?_,?_,hu.2.2,howned⟩,?_⟩,hown⟩
            · rw [trees,trees,hu.1,htrees]
            · rw [sizes,sizes,hu.2.1,hsizes]
            · rw [List.append_assoc,List.singleton_append]

variable {fuel}

/-- Without memory for the whole copy nothing is left behind. With it the copy stands on its own:
it says the same as the item, takes as many nodes and shares no block with it. -/
theorem duplicate_spec (t : Item) (ht : t.Owned) {f : ℕ} (hf : 2 * t.size ≤ f) (hfuel : t.size < fuel)
    (prev next : Ptr) :
    Spec (t.cells prev next) (duplicate al fuel f (some t.addr) true)
      fun r cs => ∃ own, cs = own + t.cells prev next ∧ Makes al (Copy t) r own :=
  (duplicates_spec al fuel f).1 t prev next ht hf hfuel

theorem duplicate_shallow (t : Item) (ht : t.Owned) {f : ℕ} (hfuel : 1 < fuel) (prev next : Ptr) :
    Spec (t.cells prev next) (duplicate al fuel (f + 1) (some t.addr) false)
      fun r cs => ∃ own, cs = own + t.cells prev next ∧
        Makes al (fun u => u.tree = t.tree.withChild [] ∧ u.size = 1) r own := by
  cases t with
  | reference a ty vs vi vd st ch => exact ht.elim
  | mk a ty vs vi vd st ch =>
    refine duplicate_head al fuel a ty vs vi vd st ch prev next hfuel fun b vs' st' hvs hst => ?_
    refine Spec.pure ⟨_,rfl,Or.inr ⟨.mk b ty vs' vi vd st' [],rfl,⟨?_,rfl⟩,rfl⟩⟩
    simp only [Item.tree,CJson.withChild,hvs,hst,trees]

/-- On any heap that holds the item, and whichever calls for memory fail, `cJSON_Duplicate` either
returns NULL and leaves the heap's blocks as they were, or returns an equal tree of its own. -/
theorem duplicate_on_heap (t : Item) (ht : t.Owned) {f : ℕ} (hf : 2 * t.size ≤ f) (hfuel : t.size < fuel)
    (prev next : Ptr) (rest : Cells) (heap : Heap Addr Block)
    (hheap : Holds heap (t.cells prev next + rest)) :
    ∃ r heap', duplicate al fuel f (some t.addr) true heap = some (r,heap') ∧
      (r = none ∧ ¬ al.Total ∧ Holds heap' (t.cells prev next + rest) ∨
        ∃ u : Item, r = some u.addr ∧ u.tree = t.tree ∧ u.Owned ∧
          Holds heap' (u.cells none none + (t.cells prev next + rest))) := by
  obtain ⟨r,heap',_,hrun,⟨own,rfl,hown⟩,hh⟩ :=
    (duplicates_spec al fuel f).1 t prev next ht hf hfuel rest heap hheap
  refine ⟨r,heap',hrun,?_⟩
  rcases hown with ⟨hr,hal,rfl⟩ | ⟨u,hr,hu,rfl⟩
  · exact Or.inl ⟨hr,hal,by rwa [zero_add] at hh⟩
  · exact Or.inr ⟨u,hr,hu.1,hu.2.2,by rwa [add_assoc] at hh⟩

def sampleItem : Item := .mk 0 .array none 0 0 none [.mk 1 .number none 5 0 none []]

def sampleHeap : Heap Addr Block where
  block := Function.update (Function.update (fun _ => none) 0 (some (.node (sampleItem.node none none)))) 1
    (some (.node ((Item.mk 1 .number none 5 0 none []).node none none)))
  calls := 0

theorem sampleHeap_holds : Holds sampleHeap (sampleItem.cells none none + 0) := by
  have hchild := ((Holds.empty (A := Addr) (B := Block) 0).insert (a := 0) rfl
    (.node (sampleItem.node none none)) 0).insert (a := 1) rfl
      (.node ((Item.mk 1 .number none 5 0 none []).node none none)) 0
  have hcells : sampleItem.cells none none + 0 =
      cell 1 (.node ((Item.mk 1 .number none 5 0 none []).node none none)) +
        (cell 0 (.node (sampleItem.node none none)) + 0) := by
    simp only [sampleItem,Item.cells,Item.owned,chain_singleton,textCells,chain_nil,add_zero,zero_add]
    exact add_comm _ _
  exact hcells ▸ hchild

theorem duplicate_on_heap_sample : ∃ r heap',
    duplicate (.first Block) 3 4 (some 0) true sampleHeap = some (r,heap') ∧
      (r = none ∧ ¬ (Allocator.first Block).Total ∧ Holds heap' (sampleItem.cells none none + 0) ∨
        ∃ u : Item, r = some u.addr ∧ u.tree = sampleItem.tree ∧ u.Owned ∧
          Holds heap' (u.cells none none + (sampleItem.cells none none + 0))) :=
  duplicate_on_heap (.first Block) sampleItem ⟨trivial,trivial⟩ (by decide) (by decide) none none 0
    sampleHeap sampleHeap_holds

end CJsonHeap
end WddProc
