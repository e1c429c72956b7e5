import WddProc.CJsonHeap

/-!
# Trees as chains of nodes

`Item` is a tree with the addresses of its nodes and texts, and `Item.cells` are the
blocks that represent it. The functions on arrays and objects change the list of
children and nothing else.
-/

namespace WddProc
namespace CJsonHeap

open OwnedHeap

section steps

variable {α : Type} {pre cs : Cells} {a : Addr} {n : Node} {s : CString} {goal : α → Cells → Prop}

theorem readNode_spec {k : Node → Prog α} (hpre : pre = cell a (.node n) + cs)
    (hk : Spec pre (k n) goal) : Spec pre (readNode (some a) >>= k) goal := by
  unfold readNode
  rw [bind_assoc]
  exact Spec.load hpre (by simpa using hk)

theorem modifyNode_spec {f : Node → Node} {k : Unit → Prog α} (hpre : pre = cell a (.node n) + cs)
    (hk : Spec (cell a (.node (f n)) + cs) (k ()) goal) :
    Spec pre (modifyNode (some a) f >>= k) goal := by
  unfold modifyNode
  rw [bind_assoc]
  exact readNode_spec hpre (Spec.store hpre hk)

theorem readString_block {k : CString → Prog α} (hpre : pre = cell a (.text s) + cs)
    (hk : Spec pre (k s) goal) : Spec pre (readString (.block a) >>= k) goal := by
  unfold readString
  rw [bind_assoc]
  exact Spec.load hpre (by simpa using hk)

/-- A `const char *` argument reads as `s` and needs these cells. -/
def CharPtr.Reads (s : CString) : CharPtr → Cells → Prop
  | .outside t, cs => t = s ∧ cs = 0
  | .block a, cs => cs = cell a (.text s)

theorem readString_spec {str : CharPtr} {own : Cells} {k : CString → Prog α} (hstr : str.Reads s own)
    (hpre : pre = own + cs) (hk : Spec pre (k s) goal) : Spec pre (readString str >>= k) goal := by
  cases str with
  | outside t =>
    obtain ⟨rfl,rfl⟩ := hstr
    simpa [readString] using hk
  | block a =>
    obtain rfl : own = cell a (.text s) := hstr
    exact readString_block hpre hk

end steps

abbrev Text := Addr × CString

/-- A tree on the heap. A reference has a name of its own and shares all else. -/
inductive Item
  | mk (addr : Addr) (type : CJsonType) (valuestring : Option Text) (valueint : ℤ)
      (valuedouble : F64) (string : Option Text) (child : List Item)
  | reference (addr : Addr) (type : CJsonType) (valuestring : Ptr) (valueint : ℤ)
      (valuedouble : F64) (string : Option Text) (child : Ptr)

namespace Item

def addr : Item → Addr
  | .mk a _ _ _ _ _ _ => a
  | .reference a _ _ _ _ _ _ => a

def string : Item → Option Text
  | .mk _ _ _ _ _ st _ => st
  | .reference _ _ _ _ _ st _ => st

def named (st : Option Text) : Item → Item
  | .mk a ty vs vi vd _ ch => .mk a ty vs vi vd st ch
  | .reference a ty vs vi vd _ ch => .reference a ty vs vi vd st ch

@[simp] theorem named_addr (st : Option Text) (t : Item) : (t.named st).addr = t.addr := by
  cases t <;> rfl
@[simp] theorem named_string (st : Option Text) (t : Item) : (t.named st).string = st := by
  cases t <;> rfl

end Item

def headPtr (next : Ptr) : List Item → Ptr
  | [] => next
  | t :: _ => some t.addr

def lastPtr (prev : Ptr) : List Item → Ptr
  | [] => prev
  | t :: ts => lastPtr (some t.addr) ts

@[simp] theorem headPtr_nil (next : Ptr) : headPtr next [] = next := rfl
@[simp] theorem headPtr_cons (next : Ptr) (t : Item) (ts : List Item) :
    headPtr next (t :: ts) = some t.addr := rfl
@[simp] theorem lastPtr_nil (prev : Ptr) : lastPtr prev [] = prev := rfl
@[simp] theorem lastPtr_append (prev : Ptr) (ts : List Item) (t : Item) :
    lastPtr prev (ts ++ [t]) = some t.addr := by
  induction ts generalizing prev with
  | nil => rfl
  | cons u us ih => exact ih (some u.addr)

theorem headPtr_append (next : Ptr) (ts us : List Item) :
    headPtr next (ts ++ us) = headPtr (headPtr next us) ts := by
  cases ts <;> rfl

def textPtr (t : Option Text) : Ptr := t.map Prod.fst

def textCells : Option Text → Cells
  | none => 0
  | some t => cell t.1 (.text t.2)

def Item.node (prev next : Ptr) : Item → Node
  | .mk _ ty vs vi vd st ch =>
    ⟨next,prev,headPtr none ch,ty,false,textPtr vs,vi,vd,textPtr st⟩
  | .reference _ ty vs vi vd st ch => ⟨next,prev,ch,ty,true,vs,vi,vd,textPtr st⟩

mutual

/-- The blocks of an item other than its node. -/
def Item.owned : Item → Cells
  | .mk _ _ vs _ _ st ch => textCells vs + textCells st + chain none none ch
  | .reference _ _ _ _ _ st _ => textCells st

/-- The blocks of items that are linked to each other and to `prev` and `next`. -/
def chain (prev next : Ptr) : List Item → Cells
  | [] => 0
  | t :: ts => cell t.addr (.node (t.node prev (headPtr next ts))) + t.owned +
      chain (some t.addr) next ts

end

def Item.cells (prev next : Ptr) (t : Item) : Cells := cell t.addr (.node (t.node prev next)) + t.owned

@[simp] theorem chain_nil (prev next : Ptr) : chain prev next [] = 0 := by rw [chain]

theorem chain_cons (prev next : Ptr) (t : Item) (ts : List Item) :
    chain prev next (t :: ts) = t.cells prev (headPtr next ts) + chain (some t.addr) next ts := by
  rw [chain,Item.cells]

theorem chain_append (prev next : Ptr) (ts us : List Item) :
    chain prev next (ts ++ us) = chain prev (headPtr next us) ts + chain (lastPtr prev ts) next us := by
  induction ts generalizing prev with
  | nil => simp
  | cons t ts ih =>
    rw [List.cons_append,chain_cons,chain_cons,headPtr_append,ih,lastPtr]
    abel

theorem chain_singleton (prev next : Ptr) (t : Item) : chain prev next [t] = t.cells prev next := by
  rw [chain_cons,headPtr_nil,chain_nil,add_zero]

mutual

/-- The tree that an item stands for; what a reference shares is not part of it. -/
def Item.tree : Item → CJson
  | .mk _ ty vs vi vd st ch => .mk ty (vs.map Prod.snd) vi vd (st.map Prod.snd) (trees ch)
  | .reference _ ty _ vi vd st _ => .mk ty none vi vd (st.map Prod.snd) []

def trees : List Item → List CJson
  | [] => []
  | t :: ts => t.tree :: trees ts

end

theorem trees_eq (ts : List Item) : trees ts = ts.map Item.tree := by
  induction ts with
  | nil => rfl
  | cons t ts ih => rw [trees,ih,List.map_cons]

@[simp] theorem Item.node_next (prev next : Ptr) (t : Item) : (t.node prev next).next = next := by
  cases t <;> rfl
@[simp] theorem Item.node_prev (prev next : Ptr) (t : Item) : (t.node prev next).prev = prev := by
  cases t <;> rfl
@[simp] theorem Item.node_string (prev next : Ptr) (t : Item) :
    (t.node prev next).string = textPtr t.string := by
  cases t <;> rfl

theorem chain_first (prev next : Ptr) (t : Item) (ts : List Item) :
    chain prev next (t :: ts) = cell t.addr (.node (t.node prev (headPtr next ts))) +
      (t.owned + chain (some t.addr) next ts) := by
  rw [chain_cons,Item.cells,add_assoc]

theorem chain_cons_comm (prev next : Ptr) (t : Item) (ts : List Item) :
    chain prev next (t :: ts) = chain (some t.addr) next ts + t.cells prev (headPtr next ts) := by
  rw [chain_cons,add_comm]

theorem Item.owned_named (t : Item) : t.owned = textCells t.string + (t.named none).owned := by
  cases t <;> simp only [Item.owned,Item.named,Item.string,textCells] <;> abel

def textIs (s : CString) : Option Text → Bool
  | none => false
  | some x => strcaseEq x.2.bytes s.bytes

def Item.isNamed (s : CString) (t : Item) : Bool := textIs s t.string

section loops

variable {ts : List Item} {f : ℕ}

theorem countItems_spec (hf : ts.length < f) (prev : Ptr) :
    Spec (chain prev none ts) (countItems f (headPtr none ts))
      fun r cs => r = ts.length ∧ cs = chain prev none ts := by
  induction ts generalizing prev f with
  | nil =>
    obtain ⟨f,rfl⟩ := Nat.exists_eq_succ_of_ne_zero (Nat.ne_of_gt hf)
    exact Spec.pure ⟨rfl,rfl⟩
  | cons t ts ih =>
    obtain ⟨f,rfl⟩ := Nat.exists_eq_succ_of_ne_zero (Nat.ne_of_gt (Nat.zero_lt_of_lt hf))
    refine readNode_spec (chain_first prev none t ts) ?_
    rw [Item.node_next]
    refine Spec.call (ih (Nat.lt_of_succ_lt_succ hf) (some t.addr)) (chain_cons_comm prev none t ts) ?_
    rintro r cs ⟨rfl,rfl⟩
    exact Spec.pure ⟨rfl,(chain_cons_comm prev none t ts).symm⟩

theorem walk_spec (hf : ts.length < f) (prev : Ptr) (which : ℤ) :
    Spec (chain prev none ts) (walk f (headPtr none ts) which)
      fun r cs => r = ts[which.toNat]?.map Item.addr ∧ cs = chain prev none ts := by
  induction ts generalizing prev f which with
  | nil =>
    obtain ⟨f,rfl⟩ := Nat.exists_eq_succ_of_ne_zero (Nat.ne_of_gt hf)
    exact Spec.pure ⟨rfl,rfl⟩
  | cons t ts ih =>
    obtain ⟨f,rfl⟩ := Nat.exists_eq_succ_of_ne_zero (Nat.ne_of_gt (Nat.zero_lt_of_lt hf))
    rw [headPtr_cons,walk]
    by_cases hw : 0 < which
    · rw [if_pos hw]
      refine readNode_spec (chain_first prev none t ts) ?_
      rw [Item.node_next]
      refine Spec.tail (ih (Nat.lt_of_succ_lt_succ hf) (some t.addr) (which - 1))
        (chain_cons_comm prev none t ts) ?_
      rintro r cs ⟨rfl,rfl⟩
      have hn : which.toNat = (which - 1).toNat + 1 := by omega
      exact ⟨by rw [hn,List.getElem?_cons_succ],(chain_cons_comm prev none t ts).symm⟩
    · rw [if_neg hw]
      have hn : which.toNat = 0 := by omega
      exact Spec.pure ⟨by rw [hn]; rfl,rfl⟩

theorem sameName_spec {α : Type} {str : CharPtr} {s : CString} {pre own cs : Cells}
    {k : Bool → Prog α} {goal : α → Cells → Prop} (hstr : str.Reads s own) (name : Option Text)
    (hname : ∃ cs, pre = textCells name + cs) (hown : pre = own + cs) (hk : Spec pre (k (textIs s name)) goal) :
    Spec pre (sameName (textPtr name) str >>= k) goal := by
  cases name with
  | none => simpa [sameName,textPtr,textIs] using hk
  | some x =>
    obtain ⟨cs',hcs⟩ := hname
    change Spec pre ((readString (.block x.1) >>= fun a => readString str >>= fun t =>
      pure (strcaseEq a.bytes t.bytes)) >>= k) goal
    rw [bind_assoc]
    refine readString_block hcs ?_
    rw [bind_assoc]
    refine readString_spec hstr hown ?_
    simpa [textIs] using hk

theorem find_spec {str : CharPtr} {s : CString} {own : Cells} (hstr : str.Reads s own)
    (hf : ts.length < f) (prev : Ptr) (i : ℕ) :
    Spec (chain prev none ts + own) (find str f (headPtr none ts) i)
      fun r cs => r = ((ts.find? (Item.isNamed s)).map Item.addr,i + ts.findIdx (Item.isNamed s)) ∧
        cs = chain prev none ts + own := by
  induction ts generalizing prev f i with
  | nil =>
    obtain ⟨f,rfl⟩ := Nat.exists_eq_succ_of_ne_zero (Nat.ne_of_gt hf)
    exact Spec.pure ⟨by simp,rfl⟩
  | cons t ts ih =>
    obtain ⟨f,rfl⟩ := Nat.exists_eq_succ_of_ne_zero (Nat.ne_of_gt (Nat.zero_lt_of_lt hf))
    refine readNode_spec (by rw [chain_first,add_assoc]) ?_
    rw [Item.node_next,Item.node_string]
    refine sameName_spec hstr t.string ⟨cell t.addr (.node (t.node prev (headPtr none ts))) +
      (t.named none).owned + chain (some t.addr) none ts + own,by rw [chain_first,t.owned_named]; abel⟩
      (add_comm _ _) ?_
    by_cases ht : t.isNamed s = true
    · rw [show textIs s t.string = true from ht,if_pos rfl]
      exact Spec.pure ⟨by simp [ht,List.findIdx_cons],rfl⟩
    · rw [show textIs s t.string = false by simpa [Item.isNamed] using ht,if_neg (by decide)]
      refine Spec.tail (ih (Nat.lt_of_succ_lt_succ hf) (some t.addr) (i + 1))
        (show _ = _ + t.cells prev (headPtr none ts) by rw [chain_cons_comm,add_right_comm]) ?_
      rintro r cs ⟨rfl,rfl⟩
      refine ⟨?_,by rw [chain_cons_comm,add_right_comm]⟩
      simp [ht,List.findIdx_cons]
      omega

theorem lastItem_spec {t : Item} (hf : ts.length < f) (prev : Ptr) :
    Spec (chain prev none (t :: ts)) (lastItem f t.addr)
      fun r cs => some r = lastPtr (some t.addr) ts ∧ cs = chain prev none (t :: ts) := by
  induction ts generalizing prev f t with
  | nil =>
    obtain ⟨f,rfl⟩ := Nat.exists_eq_succ_of_ne_zero (Nat.ne_of_gt hf)
    refine readNode_spec (chain_first prev none t []) ?_
    rw [Item.node_next]
    exact Spec.pure ⟨rfl,rfl⟩
  | cons u ts ih =>
    obtain ⟨f,rfl⟩ := Nat.exists_eq_succ_of_ne_zero (Nat.ne_of_gt (Nat.zero_lt_of_lt hf))
    refine readNode_spec (chain_first prev none t (u :: ts)) ?_
    rw [Item.node_next]
    refine Spec.tail (ih (Nat.lt_of_succ_lt_succ hf) (some t.addr)) (chain_cons_comm prev none t _) ?_
    rintro r cs ⟨hr,rfl⟩
    exact ⟨hr,(chain_cons_comm prev none t _).symm⟩

end loops

mutual

def Item.size : Item → ℕ
  | .mk _ _ _ _ _ _ ch => sizes ch + 1
  | .reference _ _ _ _ _ _ _ => 1

def sizes : List Item → ℕ
  | [] => 0
  | t :: ts => t.size + sizes ts

end

theorem freeIf_spec {α : Type} {pre cs : Cells} {k : Unit → Prog α} {goal : α → Cells → Prop}
    (t : Option Text) (hpre : pre = textCells t + cs) (hk : Spec cs (k ()) goal) :
    Spec pre (freeIf (textPtr t) >>= k) goal := by
  cases t with
  | none =>
    obtain rfl : pre = cs := by simpa [textCells] using hpre
    simpa [freeIf,textPtr] using hk
  | some x => exact Spec.free hpre hk

/-- A chain is deleted with everything below it, node by node. -/
theorem delete_spec {f : ℕ} (ts : List Item) (hf : sizes ts < f) (prev : Ptr) :
    Spec (chain prev none ts) (delete f (headPtr none ts)) fun _ cs => cs = 0 := by
  induction f generalizing ts prev with
  | zero => exact absurd hf (Nat.not_lt_zero _)
  | succ f ih =>
    cases ts with
    | nil => exact Spec.pure (chain_nil prev none)
    | cons t ts =>
      have hts : sizes ts < f := by
        cases t <;> simp only [sizes,Item.size] at hf <;> omega
      have hnext := ih ts hts (some t.addr)
      rw [headPtr_cons,delete]
      refine readNode_spec (chain_first prev none t ts) ?_
      rw [Item.node_next]
      cases t with
      | mk a ty vs vi vd st ch =>
        have hch : sizes ch < f := by
          simp only [sizes,Item.size] at hf
          omega
        have hchild : Spec (chain none none ch)
            (Prog.when (!false && (headPtr none ch).isSome) (delete f (headPtr none ch)))
            fun _ cs => cs = 0 := by
          cases ch with
          | nil => exact Spec.pure (chain_nil none none)
          | cons u us => exact ih (u :: us) hch none
        refine Spec.call hchild (show _ = _ + (cell a (.node ((Item.mk a ty vs vi vd st ch).node prev
          (headPtr none ts))) + textCells vs + textCells st + chain (some a) none ts) by
            rw [chain_first,Item.owned,Item.addr]; abel) ?_
        rintro _ _ rfl
        rw [zero_add]
        refine readNode_spec (by rw [add_assoc,add_assoc]; rfl) ?_
        refine freeIf_spec vs (show _ = _ + (cell a (.node ((Item.mk a ty vs vi vd st ch).node prev
          (headPtr none ts))) + textCells st + chain (some a) none ts) by abel) ?_
        refine freeIf_spec st (show _ = _ + (cell a (.node ((Item.mk a ty vs vi vd st ch).node prev
          (headPtr none ts))) + chain (some a) none ts) by abel) ?_
        exact Spec.free rfl hnext
      | reference a ty vs vi vd st ch =>
        -- only the name is the reference's own
        simp only [Item.node,Bool.not_true,Bool.false_and,Prog.when_false,pure_bind]
        refine readNode_spec (chain_first prev none _ ts) ?_
        simp only [Item.node,Bool.not_true,Prog.when_false,pure_bind]
        refine freeIf_spec st (show _ = _ + (cell a (.node ((Item.reference a ty vs vi vd st ch).node prev
          (headPtr none ts))) + chain (some a) none ts) by
            rw [chain_first,Item.owned,Item.addr]; abel) ?_
        exact Spec.free rfl hnext

end CJsonHeap
end WddProc
