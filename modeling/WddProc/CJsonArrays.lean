import WddProc.CJsonChain

/-!
# Arrays and objects on the heap

What the functions that add, detach, replace and delete items do to the children of a
node. A list of children before the call becomes a list of children after it; items that
come in or go out are linked to nothing.
-/

namespace WddProc
namespace CJsonHeap

open OwnedHeap

def family (a : Addr) (n : Node) (ts : List Item) : Cells :=
  cell a (.node { n with child := headPtr none ts }) + chain none none ts

theorem chain_last (prev next : Ptr) (ts : List Item) (t : Item) :
    chain prev next (ts ++ [t]) = cell t.addr (.node (t.node (lastPtr prev ts) next)) +
      (t.owned + chain prev (some t.addr) ts) := by
  rw [chain_append,chain_singleton,headPtr_cons,Item.cells]
  abel

@[simp] theorem Item.setNext_node (prev next q : Ptr) (t : Item) :
    { t.node prev next with next := q } = t.node prev q := by
  cases t <;> rfl
@[simp] theorem Item.setPrev_node (prev next q : Ptr) (t : Item) :
    { t.node prev next with prev := q } = t.node q next := by
  cases t <;> rfl

theorem setNext_spec (ts : List Item) (old q : Ptr) :
    Spec (chain none old ts) (setNext (lastPtr none ts) q) fun _ cs => cs = chain none q ts := by
  rcases List.eq_nil_or_concat' ts with rfl | ⟨us,t,rfl⟩
  · exact Spec.pure (by simp)
  · rw [lastPtr_append]
    refine Spec.last (modifyNode_spec (chain_last none old us t) (Spec.pure ?_))
    rw [Item.setNext_node,chain_last]

theorem setPrev_spec (ts : List Item) (old q : Ptr) :
    Spec (chain old none ts) (setPrev (headPtr none ts) q) fun _ cs => cs = chain q none ts := by
  cases ts with
  | nil => exact Spec.pure (by simp)
  | cons t ts =>
    refine Spec.last (modifyNode_spec (chain_first old none t ts) (Spec.pure ?_))
    rw [Item.setPrev_node,chain_first]

section arrays

variable {fuel : ℕ} {ts : List Item} (a : Addr) (n : Node)

theorem intOf_spec {α : Type} {i : ℕ} (hi : i ≤ INT_MAX) {pre : Cells} {k : ℕ → Prog α}
    {goal : α → Cells → Prop} (hk : Spec pre (k i) goal) : Spec pre (intOf i >>= k) goal := by
  rw [intOf,if_pos hi]
  exact hk

theorem getArraySize_spec (hf : ts.length < fuel) (hmax : ts.length ≤ INT_MAX) :
    Spec (family a n ts) (getArraySize fuel (some a))
      fun r cs => r = ts.length ∧ cs = family a n ts := by
  refine readNode_spec rfl ?_
  refine Spec.call (countItems_spec hf none) (add_comm _ _) ?_
  rintro _ _ ⟨rfl,rfl⟩
  exact Spec.last (intOf_spec hmax (Spec.pure ⟨rfl,add_comm _ _⟩))

theorem getArrayItem_spec (hf : ts.length < fuel) (item : ℤ) :
    Spec (family a n ts) (getArrayItem fuel (some a) item)
      fun r cs => r = ts[item.toNat]?.map Item.addr ∧ cs = family a n ts := by
  refine readNode_spec rfl ?_
  refine Spec.tail (walk_spec hf none item) (add_comm _ _) ?_
  rintro r cs ⟨rfl,rfl⟩
  exact ⟨rfl,add_comm _ _⟩

theorem getObjectItem_spec {str : CharPtr} {s : CString} {own : Cells} (hstr : str.Reads s own)
    (hf : ts.length < fuel) :
    Spec (family a n ts + own) (getObjectItem fuel (some a) str)
      fun r cs => r = (ts.find? (Item.isNamed s)).map Item.addr ∧ cs = family a n ts + own := by
  refine readNode_spec (add_assoc _ _ _) ?_
  refine Spec.call (find_spec hstr hf none 0) (by rw [family]; abel) ?_
  rintro r cs ⟨rfl,rfl⟩
  exact Spec.pure ⟨rfl,by rw [family]; abel⟩

theorem firstChild_spec (t : Item) :
    Spec (family a n [] + t.cells none none) (modifyNode (some a) fun m => { m with child := some t.addr })
      fun _ cs => cs = family a n [t] := by
  refine Spec.last (modifyNode_spec (add_assoc _ _ _) (Spec.pure ?_))
  rw [family,chain_singleton,headPtr_cons,chain_nil,zero_add]

theorem suffixObject_spec (hts : ts ≠ []) (t : Item) :
    Spec (family a n ts + t.cells none none) (suffixObject (lastPtr none ts) (some t.addr))
      fun _ cs => cs = family a n (ts ++ [t]) := by
  obtain ⟨us,z,rfl⟩ : ∃ us z, ts = us ++ [z] := (List.eq_nil_or_concat' ts).resolve_left hts
  rw [lastPtr_append,family,chain_last]
  refine modifyNode_spec (show _ = cell z.addr (.node (z.node (lastPtr none us) none)) +
    (t.cells none none + (z.owned + chain none (some z.addr) us +
      cell a (.node { n with child := headPtr none (us ++ [z]) }))) by abel) ?_
  refine Spec.last (modifyNode_spec (show _ = cell t.addr (.node (t.node none none)) +
    (t.owned + (cell z.addr (.node (z.node (lastPtr none us) (some t.addr))) +
      (z.owned + chain none (some z.addr) us +
        cell a (.node { n with child := headPtr none (us ++ [z]) })))) by
          rw [Item.cells,Item.setNext_node]; abel) (Spec.pure ?_))
  rw [Item.setPrev_node,family,chain_last,chain_last,lastPtr_append,headPtr_append]
  rw [headPtr_append,headPtr_append,headPtr_cons,headPtr_cons]
  abel

theorem addItemToArray_spec (hf : ts.length ≤ fuel) (t : Item) :
    Spec (family a n ts + t.cells none none) (addItemToArray fuel (some a) (some t.addr))
      fun _ cs => cs = family a n (ts ++ [t]) := by
  refine readNode_spec (add_assoc _ _ _) ?_
  cases ts with
  | nil => exact firstChild_spec a n t
  | cons u us =>
    refine Spec.call (lastItem_spec hf none) (show _ = _ + (
      cell a (.node { n with child := headPtr none (u :: us) }) + t.cells none none) by
        rw [family]; abel) ?_
    rintro last _ ⟨hlast,rfl⟩
    have hsuffix := suffixObject_spec a n (List.cons_ne_nil u us) t
    rw [show lastPtr none (u :: us) = some last from hlast.symm,family] at hsuffix
    rw [show chain none none (u :: us) + (cell a (.node { n with child := headPtr none (u :: us) }) +
      t.cells none none) = cell a (.node { n with child := headPtr none (u :: us) }) +
        chain none none (u :: us) + t.cells none none by abel]
    exact hsuffix

theorem detachItemFromArray_spec (l r : List Item) (t : Item) (hts : ts = l ++ t :: r)
    (hf : ts.length < fuel) {which : ℤ} (hwhich : which.toNat = l.length) :
    Spec (family a n ts) (detachItemFromArray fuel (some a) which)
      fun p cs => p = some t.addr ∧ cs = family a n (l ++ r) + t.cells none none := by
  refine readNode_spec rfl ?_
  refine Spec.call (walk_spec hf none which) (add_comm _ _) ?_
  rintro _ _ ⟨rfl,rfl⟩
  have hget : ts[which.toNat]? = some t := by rw [hwhich,hts]; simp
  rw [hget,Option.map_some]
  subst hts
  rw [chain_append,headPtr_cons,chain_first]
  refine readNode_spec (show _ = cell t.addr (.node (t.node (lastPtr none l) (headPtr none r))) +
    (t.owned + chain (some t.addr) none r + chain none (some t.addr) l +
      cell a (.node { n with child := headPtr none (l ++ t :: r) })) by abel) ?_
  rw [Item.node_next,Item.node_prev]
  refine Spec.call (setNext_spec l (some t.addr) (headPtr none r)) (show _ = _ + (
    cell t.addr (.node (t.node (lastPtr none l) (headPtr none r))) + t.owned +
      chain (some t.addr) none r + cell a (.node { n with child := headPtr none (l ++ t :: r) })) by
        abel) ?_
  rintro _ _ rfl
  refine Spec.call (setPrev_spec r (some t.addr) (lastPtr none l)) (show _ = _ + (
    cell t.addr (.node (t.node (lastPtr none l) (headPtr none r))) + t.owned +
      chain none (headPtr none r) l + cell a (.node { n with child := headPtr none (l ++ t :: r) })) by
        abel) ?_
  rintro _ _ rfl
  refine readNode_spec (show _ = cell a (.node { n with child := headPtr none (l ++ t :: r) }) + (
    cell t.addr (.node (t.node (lastPtr none l) (headPtr none r))) + t.owned +
      chain none (headPtr none r) l + chain (lastPtr none l) none r) by abel) ?_
  have hchild : Spec (cell a (.node { n with child := headPtr none (l ++ t :: r) }) +
      (cell t.addr (.node (t.node (lastPtr none l) (headPtr none r))) + chain none (headPtr none r) l))
      (Prog.when (headPtr none (l ++ t :: r) = some t.addr)
        (modifyNode (some a) fun m => { m with child := headPtr none r }))
      fun _ cs => cs = cell a (.node { n with child := headPtr none (l ++ r) }) +
        (cell t.addr (.node (t.node (lastPtr none l) (headPtr none r))) +
          chain none (headPtr none r) l) := by
    cases l with
    | nil =>
      rw [List.nil_append,headPtr_cons,decide_eq_true rfl]
      exact Spec.last (modifyNode_spec rfl (Spec.pure rfl))
    | cons x l =>
      refine Spec.apart (show _ = cell x.addr (.node (x.node none (headPtr (headPtr none r) l))) +
        cell t.addr (.node (t.node (lastPtr none (x :: l)) (headPtr none r))) + (x.owned +
          chain (some x.addr) (headPtr none r) l +
            cell a (.node { n with child := some x.addr })) by
              rw [chain_first,List.cons_append,headPtr_cons]; abel) fun hne => ?_
      rw [List.cons_append,headPtr_cons,decide_eq_false (by simpa using hne)]
      exact Spec.pure rfl
  refine Spec.call hchild (show _ = _ + (t.owned + chain (lastPtr none l) none r) by abel) ?_
  rintro _ _ rfl
  refine modifyNode_spec (show _ = cell t.addr (.node (t.node (lastPtr none l) (headPtr none r))) + (
    t.owned + chain none (headPtr none r) l + chain (lastPtr none l) none r +
      cell a (.node { n with child := headPtr none (l ++ r) })) by abel) (Spec.pure ⟨rfl,?_⟩)
  rw [show ({ t.node (lastPtr none l) (headPtr none r) with next := none, prev := none } : Node) =
    t.node none none by cases t <;> rfl]
  rw [family,chain_append,Item.cells]
  abel

theorem detachItemFromArray_missing (hf : ts.length < fuel) {which : ℤ}
    (hwhich : ts.length ≤ which.toNat) :
    Spec (family a n ts) (detachItemFromArray fuel (some a) which)
      fun p cs => p = none ∧ cs = family a n ts := by
  refine readNode_spec rfl ?_
  refine Spec.call (walk_spec hf none which) (add_comm _ _) ?_
  rintro _ _ ⟨rfl,rfl⟩
  rw [List.getElem?_eq_none hwhich,add_comm]
  exact Spec.pure ⟨rfl,rfl⟩

theorem replaceItemInArray_spec (l r : List Item) (t x : Item) (hts : ts = l ++ t :: r)
    (hf : ts.length < fuel) (ht : t.size < fuel) {which : ℤ} (hwhich : which.toNat = l.length)
    (prev next : Ptr) :
    Spec (family a n ts + x.cells prev next) (replaceItemInArray fuel (some a) which (some x.addr))
      fun _ cs => cs = family a n (l ++ x :: r) := by
  refine readNode_spec (add_assoc _ _ _) ?_
  refine Spec.call (walk_spec hf none which) (show _ = _ + (
    cell a (.node { n with child := headPtr none ts }) + x.cells prev next) by rw [family]; abel) ?_
  rintro _ _ ⟨rfl,rfl⟩
  have hget : ts[which.toNat]? = some t := by rw [hwhich,hts]; simp
  rw [hget,Option.map_some]
  subst hts
  rw [chain_append,headPtr_cons,chain_first]
  refine readNode_spec (show _ = cell t.addr (.node (t.node (lastPtr none l) (headPtr none r))) +
    (t.owned + chain (some t.addr) none r + chain none (some t.addr) l +
      (cell a (.node { n with child := headPtr none (l ++ t :: r) }) + x.cells prev next)) by abel) ?_
  rw [Item.node_next,Item.node_prev]
  refine modifyNode_spec (show _ = cell x.addr (.node (x.node prev next)) + (x.owned +
    cell t.addr (.node (t.node (lastPtr none l) (headPtr none r))) + t.owned +
      chain (some t.addr) none r + chain none (some t.addr) l +
        cell a (.node { n with child := headPtr none (l ++ t :: r) })) by rw [Item.cells]; abel) ?_
  rw [show ({ x.node prev next with next := headPtr none r, prev := lastPtr none l } : Node) =
    x.node (lastPtr none l) (headPtr none r) by cases x <;> rfl]
  refine Spec.call (setPrev_spec r (some t.addr) (some x.addr)) (show _ = _ + (
    cell x.addr (.node (x.node (lastPtr none l) (headPtr none r))) + x.owned +
    cell t.addr (.node (t.node (lastPtr none l) (headPtr none r))) + t.owned +
      chain none (some t.addr) l + cell a (.node { n with child := headPtr none (l ++ t :: r) })) by
        abel) ?_
  rintro _ _ rfl
  refine readNode_spec (show _ = cell a (.node { n with child := headPtr none (l ++ t :: r) }) + (
    chain (some x.addr) none r + (cell x.addr (.node (x.node (lastPtr none l) (headPtr none r))) +
      x.owned + cell t.addr (.node (t.node (lastPtr none l) (headPtr none r))) + t.owned +
        chain none (some t.addr) l)) by abel) ?_
  have hlink : Spec (cell a (.node { n with child := headPtr none (l ++ t :: r) }) +
      (cell t.addr (.node (t.node (lastPtr none l) (headPtr none r))) + chain none (some t.addr) l))
      (if headPtr none (l ++ t :: r) = some t.addr then
        modifyNode (some a) fun m => { m with child := some x.addr }
      else modifyNode (lastPtr none l) fun m => { m with next := some x.addr })
      fun _ cs => cs = cell a (.node { n with child := headPtr none (l ++ x :: r) }) +
        (cell t.addr (.node (t.node (lastPtr none l) (headPtr none r))) + chain none (some x.addr) l) := by
    cases l with
    | nil =>
      rw [List.nil_append,headPtr_cons,if_pos rfl]
      exact Spec.last (modifyNode_spec rfl (Spec.pure (by simp)))
    | cons u us =>
      refine Spec.apart (show _ = cell u.addr (.node (u.node none (headPtr (some t.addr) us))) +
        cell t.addr (.node (t.node (lastPtr none (u :: us)) (headPtr none r))) + (u.owned +
          chain (some u.addr) (some t.addr) us + cell a (.node { n with child := some u.addr })) by
            rw [chain_first,List.cons_append,headPtr_cons]; abel) fun hne => ?_
      rw [List.cons_append,headPtr_cons,if_neg (by simpa using hne),List.cons_append,headPtr_cons]
      obtain ⟨vs,z,hz⟩ : ∃ vs z, u :: us = vs ++ [z] :=
        (List.eq_nil_or_concat' (u :: us)).resolve_left (List.cons_ne_nil u us)
      rw [hz,lastPtr_append]
      refine Spec.last (modifyNode_spec (show _ = cell z.addr (.node (z.node (lastPtr none vs)
        (some t.addr))) + (z.owned + chain none (some z.addr) vs +
          cell t.addr (.node (t.node (some z.addr) (headPtr none r))) +
            cell a (.node { n with child := some u.addr })) by rw [chain_last]; abel) (Spec.pure ?_))
      rw [Item.setNext_node,chain_last]
      abel
  refine Spec.call hlink (show _ = _ + (chain (some x.addr) none r +
    (cell x.addr (.node (x.node (lastPtr none l) (headPtr none r))) + x.owned) + t.owned) by abel) ?_
  rintro _ _ rfl
  refine modifyNode_spec (show _ = cell t.addr (.node (t.node (lastPtr none l) (headPtr none r))) + (
    t.owned + (chain (some x.addr) none r + (cell x.addr (.node (x.node (lastPtr none l)
      (headPtr none r))) + x.owned) + chain none (some x.addr) l +
        cell a (.node { n with child := headPtr none (l ++ x :: r) }))) by abel) ?_
  rw [show ({ t.node (lastPtr none l) (headPtr none r) with next := none, prev := none } : Node) =
    t.node none none by cases t <;> rfl]
  refine Spec.tail (delete_spec [t] (by simpa [sizes] using ht) none) (show _ = _ + (
    chain (some x.addr) none r + (cell x.addr (.node (x.node (lastPtr none l) (headPtr none r))) +
      x.owned) + chain none (some x.addr) l +
        cell a (.node { n with child := headPtr none (l ++ x :: r) })) by
          rw [chain_singleton,Item.cells]; abel) ?_
  rintro _ _ rfl
  rw [family,chain_append,chain_cons,Item.cells,headPtr_cons]
  abel

theorem replaceItemInArray_missing (hf : ts.length < fuel) {which : ℤ}
    (hwhich : ts.length ≤ which.toNat) (newitem : Ptr) :
    Spec (family a n ts) (replaceItemInArray fuel (some a) which newitem)
      fun _ cs => cs = family a n ts := by
  refine readNode_spec rfl ?_
  refine Spec.call (walk_spec hf none which) (add_comm _ _) ?_
  rintro _ _ ⟨rfl,rfl⟩
  rw [List.getElem?_eq_none hwhich]
  exact Spec.pure (add_comm _ _)

theorem find_first {s : CString} {l r : List Item} {t : Item} (hl : ∀ x ∈ l, x.isNamed s = false)
    (ht : t.isNamed s = true) : (l ++ t :: r).find? (Item.isNamed s) = some t ∧
      (l ++ t :: r).findIdx (Item.isNamed s) = l.length := by
  have hnone : l.find? (Item.isNamed s) = none := by simpa using hl
  refine ⟨by rw [List.find?_append,hnone]; simp [ht],?_⟩
  rw [List.findIdx_append,if_neg (by simpa using hl)]
  simp [List.findIdx_cons,ht]

theorem find_none {s : CString} {ts : List Item} (h : ∀ x ∈ ts, x.isNamed s = false) :
    ts.find? (Item.isNamed s) = none := by
  simpa using h

theorem deleteItemFromArray_spec (l r : List Item) (t : Item) (hts : ts = l ++ t :: r)
    (hf : ts.length < fuel) (ht : t.size < fuel) {which : ℤ} (hwhich : which.toNat = l.length) :
    Spec (family a n ts) (deleteItemFromArray fuel (some a) which)
      fun _ cs => cs = family a n (l ++ r) := by
  refine (detachItemFromArray_spec a n l r t hts hf hwhich).bind ?_
  rintro _ _ ⟨rfl,rfl⟩
  refine Spec.tail (delete_spec [t] (by simpa [sizes] using ht) none)
    (by rw [chain_singleton,add_comm]) ?_
  rintro _ _ rfl
  exact zero_add _

theorem deleteItemFromArray_missing (hf : ts.length < fuel) {which : ℤ}
    (hwhich : ts.length ≤ which.toNat) :
    Spec (family a n ts) (deleteItemFromArray fuel (some a) which)
      fun _ cs => cs = family a n ts := by
  refine (detachItemFromArray_missing a n hf hwhich).bind ?_
  rintro _ _ ⟨rfl,rfl⟩
  obtain ⟨f,rfl⟩ := Nat.exists_eq_succ_of_ne_zero (Nat.ne_of_gt (Nat.zero_lt_of_lt hf))
  exact Spec.pure rfl

section names

variable {str : CharPtr} {s : CString} {own : Cells}

theorem find_bind {α : Type} (hstr : str.Reads s own) (hf : ts.length < fuel)
    (hmax : ts.length ≤ INT_MAX) {k : Ptr × ℕ → Prog α} {goal : α → Cells → Prop} (other : Cells)
    (hk : Spec (family a n ts + own + other) (k ((ts.find? (Item.isNamed s)).map Item.addr,
      ts.findIdx (Item.isNamed s))) goal) :
    Spec (family a n ts + own + other)
      (readNode (some a) >>= fun o => findIndex fuel str o.child >>= k) goal := by
  refine readNode_spec (show _ = _ + (chain none none ts + own + other) by rw [family]; abel) ?_
  rw [findIndex,bind_assoc]
  refine Spec.call (find_spec hstr hf none 0) (show _ = _ +
    (cell a (.node { n with child := headPtr none ts }) + other) by rw [family]; abel) ?_
  rintro _ _ ⟨rfl,rfl⟩
  have hidx : ts.findIdx (Item.isNamed s) ≤ INT_MAX := List.findIdx_le_length.trans hmax
  rw [zero_add,bind_assoc]
  refine intOf_spec hidx ?_
  rw [show chain none none ts + own + (cell a (.node { n with child := headPtr none ts }) +
    other) = family a n ts + own + other by rw [family]; abel]
  exact hk

theorem detachItemFromObject_spec (hstr : str.Reads s own) (l r : List Item) (t : Item)
    (hts : ts = l ++ t :: r) (hl : ∀ x ∈ l, x.isNamed s = false) (ht : t.isNamed s = true)
    (hf : ts.length < fuel) (hmax : ts.length ≤ INT_MAX) :
    Spec (family a n ts + own) (detachItemFromObject fuel (some a) str)
      fun p cs => p = some t.addr ∧ cs = family a n (l ++ r) + t.cells none none + own := by
  have hfind := find_first (r := r) hl ht
  rw [← hts] at hfind
  rw [← add_zero (family a n ts + own)]
  refine find_bind a n hstr hf hmax 0 ?_
  rw [hfind.1,hfind.2,add_zero]
  refine Spec.tail (detachItemFromArray_spec a n l r t hts hf (Int.toNat_natCast _)) rfl ?_
  rintro _ _ ⟨rfl,rfl⟩
  exact ⟨rfl,rfl⟩

theorem detachItemFromObject_missing (hstr : str.Reads s own) (hts : ∀ x ∈ ts, x.isNamed s = false)
    (hf : ts.length < fuel) (hmax : ts.length ≤ INT_MAX) :
    Spec (family a n ts + own) (detachItemFromObject fuel (some a) str)
      fun p cs => p = none ∧ cs = family a n ts + own := by
  rw [← add_zero (family a n ts + own)]
  refine find_bind a n hstr hf hmax 0 ?_
  rw [find_none hts,add_zero]
  exact Spec.pure ⟨rfl,rfl⟩

theorem deleteItemFromObject_spec (hstr : str.Reads s own) (l r : List Item) (t : Item)
    (hts : ts = l ++ t :: r) (hl : ∀ x ∈ l, x.isNamed s = false) (ht : t.isNamed s = true)
    (hf : ts.length < fuel) (hmax : ts.length ≤ INT_MAX) (hsize : t.size < fuel) :
    Spec (family a n ts + own) (deleteItemFromObject fuel (some a) str)
      fun _ cs => cs = family a n (l ++ r) + own := by
  refine (detachItemFromObject_spec a n hstr l r t hts hl ht hf hmax).bind ?_
  rintro _ _ ⟨rfl,rfl⟩
  refine Spec.tail (delete_spec [t] (by simpa [sizes] using hsize) none)
    (show _ = _ + (family a n (l ++ r) + own) by rw [chain_singleton]; abel) ?_
  rintro _ _ rfl
  exact zero_add _

theorem deleteItemFromObject_missing (hstr : str.Reads s own) (hts : ∀ x ∈ ts, x.isNamed s = false)
    (hf : ts.length < fuel) (hmax : ts.length ≤ INT_MAX) :
    Spec (family a n ts + own) (deleteItemFromObject fuel (some a) str)
      fun _ cs => cs = family a n ts + own := by
  refine (detachItemFromObject_missing a n hstr hts hf hmax).bind ?_
  rintro _ _ ⟨rfl,rfl⟩
  obtain ⟨f,rfl⟩ := Nat.exists_eq_succ_of_ne_zero (Nat.ne_of_gt (Nat.zero_lt_of_lt hf))
  exact Spec.pure rfl

end names

/-- A copy of a string, or nothing if there was no memory for it. -/
def Copies (al : Allocator Addr Block) (s : CString) (name : Option Text) : Prop :=
  name = none ∧ ¬ al.Total ∨ ∃ b, name = some (b,s)

theorem strdup_spec {α : Type} (al : Allocator Addr Block) {str : CharPtr} {s : CString}
    {pre own cs : Cells} {k : Ptr → Prog α} {goal : α → Cells → Prop} (hstr : str.Reads s own)
    (hpre : pre = own + cs)
    (hk : ∀ name, Copies al s name → Spec (textCells name + pre) (k (textPtr name)) goal) :
    Spec pre (strdup al str >>= k) goal := by
  unfold strdup
  rw [bind_assoc]
  refine readString_spec hstr hpre (Spec.malloc (fun ht => ?_) fun b => ?_)
  · have h := hk none (Or.inl ⟨rfl,ht⟩)
    rwa [textCells,zero_add] at h
  · exact hk (some (b,s)) (Or.inr ⟨b,rfl⟩)

theorem Item.cells_named (prev next : Ptr) (t : Item) (name : Option Text) :
    (t.named name).cells prev next = cell t.addr (.node { t.node prev next with
      string := textPtr name }) + (textCells name + (t.named none).owned) := by
  cases t <;> simp only [Item.cells,Item.named,Item.owned,Item.node,Item.addr,textCells] <;> abel

theorem Item.cells_eq_named (prev next : Ptr) (t : Item) :
    t.cells prev next = cell t.addr (.node (t.node prev next)) +
      (textCells t.string + (t.named none).owned) := by
  rw [Item.cells,t.owned_named]

theorem addItemToObject_spec (al : Allocator Addr Block) {str : CharPtr} {s : CString} {own : Cells}
    (hstr : str.Reads s own) (hf : ts.length ≤ fuel) (t : Item) :
    Spec (family a n ts + t.cells none none + own) (addItemToObject al fuel (some a) str (some t.addr))
      fun _ cs => ∃ name, Copies al s name ∧ cs = family a n (ts ++ [t.named name]) + own := by
  refine readNode_spec (show _ = cell t.addr (.node (t.node none none)) +
    (t.owned + family a n ts + own) by rw [Item.cells]; abel) ?_
  rw [Item.node_string]
  refine freeIf_spec t.string (show _ = _ + (cell t.addr (.node (t.node none none)) +
    ((t.named none).owned + family a n ts + own)) by rw [Item.cells_eq_named]; abel) ?_
  refine strdup_spec al hstr (show _ = _ + (cell t.addr (.node (t.node none none)) +
    ((t.named none).owned + family a n ts)) by abel) fun name hname => ?_
  refine modifyNode_spec (show _ = cell t.addr (.node (t.node none none)) +
    (textCells name + (t.named none).owned + family a n ts + own) by abel) ?_
  have hadd := addItemToArray_spec a n hf (t.named name)
  rw [Item.named_addr] at hadd
  refine Spec.tail hadd (show _ = _ + own by rw [Item.cells_named]; abel) ?_
  rintro _ _ rfl
  exact ⟨name,hname,rfl⟩

/-- Only the name that the new item had is left over. -/
theorem replaceItemInObject_spec (al : Allocator Addr Block) {str : CharPtr} {s : CString} {own : Cells}
    (hstr : str.Reads s own) (l r : List Item) (t x : Item) (hts : ts = l ++ t :: r)
    (hl : ∀ x ∈ l, x.isNamed s = false) (ht : t.isNamed s = true) (hf : ts.length < fuel)
    (hmax : ts.length ≤ INT_MAX) (hsize : t.size < fuel) (prev next : Ptr) :
    Spec (family a n ts + own + x.cells prev next)
      (replaceItemInObject al fuel (some a) str (some x.addr))
      fun _ cs => ∃ name, Copies al s name ∧
        cs = family a n (l ++ x.named name :: r) + textCells x.string + own := by
  have hfind := find_first (r := r) hl ht
  rw [← hts] at hfind
  refine find_bind a n hstr hf hmax (x.cells prev next) ?_
  rw [hfind.1,hfind.2]
  refine strdup_spec al hstr (show _ = _ + (family a n ts + x.cells prev next) by abel)
    fun name hname => ?_
  refine modifyNode_spec (show _ = cell x.addr (.node (x.node prev next)) +
    (textCells name + (x.named none).owned + family a n ts + (textCells x.string + own)) by
      rw [x.cells_eq_named]; abel) ?_
  have hreplace := replaceItemInArray_spec a n l r t (x.named name) hts hf hsize
    (Int.toNat_natCast l.length) prev next
  rw [Item.named_addr] at hreplace
  refine Spec.tail hreplace (show _ = _ + (textCells x.string + own) by
    rw [Item.cells_named]; abel) ?_
  rintro _ _ rfl
  exact ⟨name,hname,by abel⟩

theorem replaceItemInObject_missing (al : Allocator Addr Block) {str : CharPtr} {s : CString}
    {own : Cells} (hstr : str.Reads s own) (hts : ∀ x ∈ ts, x.isNamed s = false)
    (hf : ts.length < fuel) (hmax : ts.length ≤ INT_MAX) (newitem : Ptr) :
    Spec (family a n ts + own) (replaceItemInObject al fuel (some a) str newitem)
      fun _ cs => cs = family a n ts + own := by
  rw [← add_zero (family a n ts + own)]
  refine find_bind a n hstr hf hmax 0 ?_
  rw [find_none hts,add_zero]
  exact Spec.pure rfl

end arrays

section creation

variable (al : Allocator Addr Block)

/-- Nothing for want of memory, or an item that is linked to nothing. -/
def Makes (P : Item → Prop) (r : Ptr) (cs : Cells) : Prop :=
  r = none ∧ ¬ al.Total ∧ cs = 0 ∨ ∃ t, r = some t.addr ∧ P t ∧ cs = t.cells none none

theorem create_spec {f : Node → Node} {ty : CJsonType} {vi : ℤ} {vd : F64}
    (hf : f Node.zero = ⟨none,none,none,ty,false,none,vi,vd,none⟩) :
    Spec 0 (create al f) (Makes al fun t => ∃ b, t = .mk b ty none vi vd none []) := by
  refine Spec.malloc (fun ht => Spec.pure (Or.inl ⟨rfl,ht,rfl⟩)) fun b => ?_
  refine modifyNode_spec rfl (Spec.pure (Or.inr ⟨.mk b ty none vi vd none [],rfl,⟨b,rfl⟩,?_⟩))
  rw [hf,Item.cells,Item.owned]
  simp [textCells,Item.addr,Item.node,textPtr]

theorem createString_spec {str : CharPtr} {s : CString} {own : Cells} (hstr : str.Reads s own) :
    Spec own (createString al str) fun r cs => ∃ made, cs = made + own ∧
      Makes al (fun t => ∃ b vs, Copies al s vs ∧ t = .mk b .string vs 0 0 none []) r made := by
  refine Spec.malloc (fun ht => Spec.pure ⟨0,(zero_add _).symm,Or.inl ⟨rfl,ht,rfl⟩⟩) fun b => ?_
  refine modifyNode_spec rfl (strdup_spec al hstr (add_comm _ _) fun vs hvs => ?_)
  refine modifyNode_spec (add_left_comm _ _ _) (Spec.pure
    ⟨(Item.mk b .string vs 0 0 none []).cells none none,?_,Or.inr ⟨_,rfl,⟨b,vs,hvs,rfl⟩,rfl⟩⟩)
  rw [Item.cells,Item.owned,chain_nil,textCells,add_zero,add_zero,add_assoc]
  rfl

theorem createReference_spec (t : Item) (prev next : Ptr) :
    Spec (t.cells prev next) (createReference al (some t.addr)) fun r cs =>
      r = none ∧ ¬ al.Total ∧ cs = t.cells prev next ∨
      ∃ b, r = some b ∧ cs = (Item.reference b (t.node prev next).type (t.node prev next).valuestring
        (t.node prev next).valueint (t.node prev next).valuedouble none
        (t.node prev next).child).cells none none + t.cells prev next := by
  refine Spec.malloc (fun ht => Spec.pure (Or.inl ⟨rfl,ht,rfl⟩)) fun b => ?_
  refine readNode_spec (add_left_comm _ _ _) (modifyNode_spec rfl (Spec.pure (Or.inr ⟨b,rfl,?_⟩)))
  exact congrArg (· + t.cells prev next) (add_zero _).symm

theorem createEntries_spec (ht : al.Total) (a : Addr) (n : Node) {entries : List (Prog Ptr)}
    {Ps : List (Item → Prop)} (h : List.Forall₂ (fun c P => Spec 0 c (Makes al P)) entries Ps)
    (ts : List Item) :
    Spec (family a n ts) (createEntries (some a) ts.length (lastPtr none ts) entries) fun _ cs =>
      ∃ us, List.Forall₂ (fun P u => P u) Ps us ∧ cs = family a n (ts ++ us) := by
  induction h generalizing ts with
  | nil => exact Spec.pure ⟨[],List.Forall₂.nil,by rw [List.append_nil]⟩
  | @cons c P entries Ps hc h ih =>
    refine Spec.call hc (zero_add _).symm ?_
    rintro r cs (⟨-,hn,-⟩ | ⟨u,rfl,hu,rfl⟩)
    · exact absurd ht hn
    · have hlink : Spec (family a n ts + u.cells none none)
          (if ts.length = 0 then modifyNode (some a) fun m => { m with child := some u.addr }
          else suffixObject (lastPtr none ts) (some u.addr)) fun _ cs => cs = family a n (ts ++ [u]) := by
        by_cases hts : ts = []
        · subst hts
          exact firstChild_spec a n u
        · rw [if_neg (by simpa using hts)]
          exact suffixObject_spec a n hts u
      rw [add_comm]
      refine hlink.bind ?_
      rintro _ _ rfl
      have hrest := ih (ts ++ [u])
      rw [lastPtr_append,List.length_append,List.length_singleton] at hrest
      refine hrest.mono ?_
      rintro _ _ ⟨us,hus,rfl⟩
      exact ⟨u :: us,List.Forall₂.cons hu hus,by rw [List.append_assoc,List.singleton_append]⟩

theorem createArrayOf_spec (ht : al.Total) {entries : List (Prog Ptr)} {Ps : List (Item → Prop)}
    (h : List.Forall₂ (fun c P => Spec 0 c (Makes al P)) entries Ps) :
    Spec 0 (createArrayOf al entries) (Makes al fun t =>
      ∃ b us, List.Forall₂ (fun P u => P u) Ps us ∧ t = .mk b .array none 0 0 none us) := by
  have hcreate : Spec 0 (createArray al) (Makes al fun t => ∃ b, t = .mk b .array none 0 0 none []) :=
    create_spec al rfl
  refine hcreate.bind ?_
  rintro r cs (⟨-,hn,-⟩ | ⟨_,rfl,⟨b,rfl⟩,rfl⟩)
  · exact absurd ht hn
  · let n : Node := ⟨none,none,none,.array,false,none,0,0,none⟩
    have hcells (us : List Item) : (Item.mk b .array none 0 0 none us).cells none none = family b n us := by
      rw [Item.cells,Item.owned,textCells,add_zero,zero_add]
      rfl
    have hentries := createEntries_spec al ht b n h []
    rw [hcells]
    refine hentries.bind ?_
    rintro _ _ ⟨us,hus,rfl⟩
    exact Spec.pure (Or.inr ⟨.mk b .array none 0 0 none us,rfl,⟨b,us,hus,rfl⟩,(hcells us).symm⟩)

end creation

end CJsonHeap
end WddProc
