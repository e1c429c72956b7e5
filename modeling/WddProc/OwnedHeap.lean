import Mathlib.Algebra.Order.Group.Multiset
import Mathlib.Data.Finset.Max
import Mathlib.Data.Set.Finite.Basic
import Mathlib.Data.Set.Finite.Lattice
import Mathlib.Data.Multiset.MapFold
import Mathlib.Data.Multiset.UnionInter
import Mathlib.Tactic.Abel

/-!
# Programs on a heap and the cells they own

A program owns a multiset of cells. `Spec pre c post` says that `c`, started on a
heap that holds `pre` and any other cells, does nothing undefined, ends with cells
that `post` allows and leaves the other cells as they are. An allocator may fail
at every call and returns any address that is not in use.
-/

namespace WddProc
namespace OwnedHeap

variable {A B : Type}

structure Heap (A B : Type) where
  block : A → Option B
  /-- How often a block has been asked for. -/
  calls : ℕ

/-- Where the next block goes, or that there is none. -/
structure Allocator (A B : Type) where
  place : ℕ → (A → Option B) → Option A
  fresh : ∀ n m a, place n m = some a → m a = none

/-- There is always memory left. -/
def Allocator.Total (al : Allocator A B) : Prop :=
  ∀ n m, {a | m a ≠ none}.Finite → al.place n m ≠ none

/-- A program; `none` is undefined behaviour. -/
abbrev Prog (A B : Type) := StateT (Heap A B) Option

namespace Prog

variable {α : Type}

def fault : Prog A B α := fun _ => none

def when (b : Bool) (c : Prog A B Unit) : Prog A B Unit := if b then c else pure ()

@[simp] theorem when_true (c : Prog A B Unit) : when true c = c := rfl
@[simp] theorem when_false (c : Prog A B Unit) : when false c = pure () := rfl

def load (a : A) : Prog A B B := fun h => (h.block a).map fun b => (b,h)

def store [DecidableEq A] (a : A) (b : B) : Prog A B Unit := fun h =>
  (h.block a).map fun _ => ((),{ h with block := Function.update h.block a (some b) })

def free [DecidableEq A] (a : A) : Prog A B Unit := fun h =>
  (h.block a).map fun _ => ((),{ h with block := Function.update h.block a none })

def malloc [DecidableEq A] (al : Allocator A B) (b : B) : Prog A B (Option A) := fun h =>
  match al.place h.calls h.block with
  | none => some (none,{ h with calls := h.calls + 1 })
  | some a => some (some a,⟨Function.update h.block a (some b),h.calls + 1⟩)

end Prog

abbrev Cells (A B : Type) := Multiset (A × B)

def cell (a : A) (b : B) : Cells A B := {(a,b)}

/-- The blocks of the heap are these cells. -/
def Holds (h : Heap A B) (cs : Cells A B) : Prop :=
  (cs.map Prod.fst).Nodup ∧ ∀ a b, h.block a = some b ↔ (a,b) ∈ cs

namespace Holds

variable {h : Heap A B} {cs : Cells A B} {a : A} {b : B}

theorem empty (n : ℕ) : Holds (A := A) (B := B) ⟨fun _ => none,n⟩ 0 := by
  simp [Holds]

theorem get (hh : Holds h (cell a b + cs)) : h.block a = some b :=
  (hh.2 a b).mpr (by simp [cell])

theorem notMem (hh : Holds h (cell a b + cs)) : a ∉ cs.map Prod.fst := by
  have hnodup := hh.1
  simp only [cell,Multiset.singleton_add,Multiset.map_cons,Multiset.nodup_cons] at hnodup
  exact hnodup.1

theorem notMem_of_none (hh : Holds h cs) (ha : h.block a = none) : a ∉ cs.map Prod.fst := by
  rintro hmem
  obtain ⟨⟨a',b⟩,hb,rfl⟩ := Multiset.mem_map.mp hmem
  rw [(hh.2 a' b).mpr hb] at ha
  cases ha

theorem finite (hh : Holds h cs) : {a | h.block a ≠ none}.Finite := by
  refine (Multiset.finite_toSet (cs.map Prod.fst)).subset fun a ha => ?_
  obtain ⟨b,hb⟩ := Option.ne_none_iff_exists'.mp ha
  exact Multiset.mem_map_of_mem Prod.fst ((hh.2 a b).mp hb)

theorem set [DecidableEq A] (hh : Holds h (cell a b + cs)) (b' : B) (n : ℕ) :
    Holds ⟨Function.update h.block a (some b'),n⟩ (cell a b' + cs) := by
  have ha := hh.notMem
  refine ⟨by simpa [cell] using hh.1,fun c d => ?_⟩
  by_cases hc : c = a
  · subst hc
    have hd : (c,d) ∉ cs := fun hd => ha (Multiset.mem_map_of_mem _ hd)
    simp [cell,hd,eq_comm]
  · simpa [cell,Function.update_of_ne hc,hc] using hh.2 c d

theorem erase [DecidableEq A] (hh : Holds h (cell a b + cs)) (n : ℕ) :
    Holds ⟨Function.update h.block a none,n⟩ cs := by
  have ha := hh.notMem
  have hnodup := hh.1
  simp only [cell,Multiset.singleton_add,Multiset.map_cons,Multiset.nodup_cons] at hnodup
  refine ⟨hnodup.2,fun c d => ?_⟩
  by_cases hc : c = a
  · subst hc
    have hd : (c,d) ∉ cs := fun hd => ha (Multiset.mem_map_of_mem _ hd)
    simp [hd]
  · simpa [cell,Function.update_of_ne hc,hc] using hh.2 c d

theorem insert [DecidableEq A] (hh : Holds h cs) (ha : h.block a = none) (b : B) (n : ℕ) :
    Holds ⟨Function.update h.block a (some b),n⟩ (cell a b + cs) := by
  have hmem := hh.notMem_of_none ha
  refine ⟨by simpa [cell] using ⟨by simpa using hmem,hh.1⟩,fun c d => ?_⟩
  by_cases hc : c = a
  · subst hc
    have hd : (c,d) ∉ cs := fun hd => hmem (Multiset.mem_map_of_mem _ hd)
    simp [cell,hd,eq_comm]
  · simpa [cell,Function.update_of_ne hc,hc] using hh.2 c d

end Holds

/-- From the cells `pre` the program ends well, whatever else is on the heap. -/
def Spec {α : Type} (pre : Cells A B) (c : Prog A B α) (post : α → Cells A B → Prop) : Prop :=
  ∀ rest h, Holds h (pre + rest) →
    ∃ r h' cs, c h = some (r,h') ∧ post r cs ∧ Holds h' (cs + rest)

namespace Spec

variable {α β : Type} {pre cs : Cells A B} {a : A} {b b' : B} {c : Prog A B α}
  {k : α → Prog A B β} {post post' : α → Cells A B → Prop} {goal : β → Cells A B → Prop}

theorem pure {r : α} (h : post r pre) : Spec pre (Pure.pure r : Prog A B α) post :=
  fun _ heap hh => ⟨r,heap,pre,rfl,h,hh⟩

theorem mono (h : Spec pre c post) (hpost : ∀ r cs, post r cs → post' r cs) : Spec pre c post' := by
  intro rest heap hh
  obtain ⟨r,heap',cs,hc,hr,hh'⟩ := h rest heap hh
  exact ⟨r,heap',cs,hc,hpost r cs hr,hh'⟩

theorem bind (h : Spec pre c post) (hk : ∀ r cs, post r cs → Spec cs (k r) goal) :
    Spec pre (c >>= k) goal := by
  intro rest heap hh
  obtain ⟨r,heap₁,cs₁,hc,hr,hh₁⟩ := h rest heap hh
  obtain ⟨s,heap₂,cs₂,hk₂,hs,hh₂⟩ := hk r cs₁ hr rest heap₁ hh₁
  refine ⟨s,heap₂,cs₂,?_,hs,hh₂⟩
  change (c heap).bind (fun x => k x.1 x.2) = _
  rw [hc]
  exact hk₂

/-- Cells that a program does not own stay. -/
theorem frame (h : Spec pre c post) (other : Cells A B) :
    Spec (pre + other) c fun r cs => ∃ own, cs = own + other ∧ post r own := by
  intro rest heap hh
  rw [add_assoc] at hh
  obtain ⟨r,heap',own,hc,hr,hh'⟩ := h (other + rest) heap hh
  exact ⟨r,heap',own + other,hc,⟨own,rfl,hr⟩,by rwa [add_assoc]⟩

theorem congr (hpre : pre = cs) (h : Spec cs c post) : Spec pre c post := hpre ▸ h

theorem last (h : Spec pre (c >>= Pure.pure) post) : Spec pre c post := by rwa [bind_pure] at h

theorem apart {x y : A} {u v : B} (hpre : pre = cell x u + cell y v + cs)
    (h : x ≠ y → Spec pre c post) : Spec pre c post := by
  intro rest heap hh
  refine h ?_ rest heap hh
  rw [hpre,add_assoc,add_assoc] at hh
  rintro rfl
  exact hh.notMem (by simp [cell])

/-- A call as the next step of a program that owns more than the callee. -/
theorem call {own other : Cells A B} (h : Spec own c post) (hpre : pre = own + other)
    (hk : ∀ r cs, post r cs → Spec (cs + other) (k r) goal) : Spec pre (c >>= k) goal := by
  subst hpre
  refine (h.frame other).bind ?_
  rintro r _ ⟨cs,rfl,hr⟩
  exact hk r cs hr

theorem tail {own other : Cells A B} (h : Spec own c post) (hpre : pre = own + other)
    (hk : ∀ r cs, post r cs → post' r (cs + other)) : Spec pre c post' := by
  subst hpre
  refine (h.frame other).mono ?_
  rintro r _ ⟨cs,rfl,hr⟩
  exact hk r cs hr

theorem load {k : B → Prog A B β} (hpre : pre = cell a b + cs) (hk : Spec pre (k b) goal) :
    Spec pre (Prog.load a >>= k) goal := by
  have hload : Spec pre (Prog.load a) fun r cs => r = b ∧ cs = pre := by
    intro rest heap hh
    have hget : heap.block a = some b := by
      rw [hpre,add_assoc] at hh
      exact hh.get
    exact ⟨b,heap,pre,by simp [Prog.load,hget],⟨rfl,rfl⟩,hh⟩
  refine hload.bind ?_
  rintro r _ ⟨rfl,rfl⟩
  exact hk

theorem store [DecidableEq A] {k : Unit → Prog A B β} (hpre : pre = cell a b + cs)
    (hk : Spec (cell a b' + cs) (k ()) goal) : Spec pre (Prog.store a b' >>= k) goal := by
  have hstore : Spec pre (Prog.store a b') fun _ cs' => cs' = cell a b' + cs := by
    intro rest heap hh
    rw [hpre,add_assoc] at hh
    refine ⟨(),_,_,by rw [Prog.store,hh.get]; rfl,rfl,?_⟩
    rw [add_assoc]
    exact hh.set b' heap.calls
  refine hstore.bind ?_
  rintro r _ rfl
  exact hk

theorem free [DecidableEq A] {k : Unit → Prog A B β} (hpre : pre = cell a b + cs) (hk : Spec cs (k ()) goal) :
    Spec pre (Prog.free a >>= k) goal := by
  have hfree : Spec pre (Prog.free a) fun _ cs' => cs' = cs := by
    intro rest heap hh
    rw [hpre,add_assoc] at hh
    exact ⟨(),_,_,by rw [Prog.free,hh.get]; rfl,rfl,hh.erase heap.calls⟩
  refine hfree.bind ?_
  rintro r _ rfl
  exact hk

theorem malloc [DecidableEq A] {al : Allocator A B} {k : Option A → Prog A B β}
    (hnone : ¬ al.Total → Spec pre (k none) goal)
    (hsome : ∀ a, Spec (cell a b + pre) (k (some a)) goal) :
    Spec pre (Prog.malloc al b >>= k) goal := by
  have hmalloc : Spec pre (Prog.malloc al b) fun r cs =>
      r = none ∧ ¬ al.Total ∧ cs = pre ∨ ∃ a, r = some a ∧ cs = cell a b + pre := by
    intro rest heap hh
    cases hp : al.place heap.calls heap.block with
    | none =>
      exact ⟨none,{ heap with calls := heap.calls + 1 },pre,by simp only [Prog.malloc,hp],
        Or.inl ⟨rfl,fun ht => ht _ _ hh.finite hp,rfl⟩,hh.1,hh.2⟩
    | some a =>
      refine ⟨some a,⟨Function.update heap.block a (some b),heap.calls + 1⟩,cell a b + pre,
        by simp only [Prog.malloc,hp],Or.inr ⟨a,rfl,rfl⟩,?_⟩
      rw [add_assoc]
      exact hh.insert (al.fresh _ _ _ hp) b _
  refine hmalloc.bind ?_
  rintro r _ (⟨rfl,ht,rfl⟩ | ⟨a,rfl,rfl⟩)
  · exact hnone ht
  · exact hsome a

end Spec

open Classical in
/-- The allocator that takes the first address that is free. -/
noncomputable def Allocator.first (B : Type) : Allocator ℕ B where
  place _ m := if h : ∃ a, m a = none then some (Nat.find h) else none
  fresh _ m a ha := by
    split at ha
    · next h => exact Option.some.inj ha ▸ Nat.find_spec h
    · cases ha

theorem Allocator.first_total (B : Type) : (Allocator.first B).Total := by
  intro n m hm
  have h : ∃ a, m a = none := by
    obtain ⟨a,ha⟩ := hm.exists_notMem
    exact ⟨a,by simpa using ha⟩
  simp [Allocator.first,h]

end OwnedHeap
end WddProc
