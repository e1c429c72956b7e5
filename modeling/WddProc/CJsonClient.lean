import WddProc.CJsonParseHeap

/-!
# Programs that use cJSON

A program holds trees and texts. `Call` says in which states it may call a function, and what
the call does to them. Whatever such calls it makes, the heap holds the blocks of its trees
and its texts, and nothing else.
-/

namespace WddProc
namespace CJsonHeap

open OwnedHeap

/-- An item that is no reference, apart from its children. -/
structure Container where
  addr : Addr
  type : CJsonType
  valuestring : Option Text
  valueint : ℤ
  valuedouble : F64
  string : Option Text

namespace Container

variable (c : Container)

def holding (ch : List Item) : Item :=
  .mk c.addr c.type c.valuestring c.valueint c.valuedouble c.string ch

def node (prev next : Ptr) : Node :=
  ⟨next,prev,none,c.type,false,textPtr c.valuestring,c.valueint,c.valuedouble,textPtr c.string⟩

theorem holding_cells (prev next : Ptr) (ch : List Item) : (c.holding ch).cells prev next =
    family c.addr (c.node prev next) ch + (textCells c.valuestring + textCells c.string) := by
  rw [Item.cells,holding,Item.owned,family,Item.addr,Item.node,node]
  abel

end Container

/-- `x` stands in `t`, and `put y` is `t` with `y` in its place. -/
inductive Within (x : Item) : Item → (Item → Item) → Prop
  | here : Within x x id
  | child {u : Item} {put : Item → Item} (c : Container) (l r : List Item) : Within x u put →
      Within x (c.holding (l ++ u :: r)) fun y => c.holding (l ++ put y :: r)

theorem Within.put_self {x t : Item} {put : Item → Item} (h : Within x t put) : put x = t := by
  induction h with
  | here => rfl
  | child c l r h ih => exact congrArg (fun u => c.holding (l ++ u :: r)) ih

theorem Within.cells {x t : Item} {put : Item → Item} (h : Within x t put) (prev next : Ptr) :
    ∃ prev' next' rest, ∀ y, y.addr = x.addr →
      (put y).addr = t.addr ∧ (put y).cells prev next = y.cells prev' next' + rest := by
  induction h generalizing prev next with
  | here => exact ⟨prev,next,0,fun y hy => ⟨hy,(add_zero _).symm⟩⟩
  | @child u put c l r h ih =>
    obtain ⟨prev',next',rest,hput⟩ := ih (lastPtr none l) (headPtr none r)
    refine ⟨prev',next',rest + (cell c.addr (.node { c.node prev next with
      child := headPtr (some u.addr) l }) + chain none (some u.addr) l + chain (some u.addr) none r +
        (textCells c.valuestring + textCells c.string)),fun y hy => ⟨rfl,?_⟩⟩
    obtain ⟨haddr,hcells⟩ := hput y hy
    rw [c.holding_cells,family,headPtr_append,chain_append,chain_cons,headPtr_cons,haddr,hcells]
    abel

theorem Within.size_le {x t : Item} {put : Item → Item} (h : Within x t put) : x.size ≤ t.size := by
  induction h with
  | here => exact le_refl _
  | child c l r h ih =>
    simp only [Container.holding,Item.size,sizes_append,sizes]
    omega

theorem Within.length_lt {c : Container} {ch : List Item} {t : Item} {put : Item → Item}
    (h : Within (c.holding ch) t put) : ch.length < t.size := by
  have hsize := h.size_le
  have hlen := length_le_sizes ch
  simp only [Container.holding,Item.size] at hsize
  omega

theorem Within.member_size {c : Container} {ch l r : List Item} {t u : Item} {put : Item → Item}
    (h : Within (c.holding ch) t put) (hch : ch = l ++ u :: r) : u.size < t.size := by
  have hsize := h.size_le
  simp only [Container.holding,Item.size,hch,sizes_append,sizes] at hsize
  omega

theorem outside_reads (str : CString) : CharPtr.Reads str (.outside str) 0 := ⟨rfl,rfl⟩

/-- The trees that a program holds, and the texts that are in no tree. -/
structure State where
  roots : Multiset Item
  loose : Multiset Text

def State.cells (s : State) : Cells :=
  (s.roots.map (Item.cells none none)).sum + (s.loose.map fun x => cell x.1 (.text x.2)).sum

theorem State.cells_cons (t : Item) (ts : Multiset Item) (loose : Multiset Text) :
    State.cells ⟨t ::ₘ ts,loose⟩ = t.cells none none + State.cells ⟨ts,loose⟩ := by
  simp only [State.cells,Multiset.map_cons,Multiset.sum_cons,add_assoc]

def looseText (x : Option Text) : Multiset Text := Multiset.ofList x.toList

theorem State.cells_loose (ts : Multiset Item) (x : Option Text) (loose : Multiset Text) :
    State.cells ⟨ts,looseText x + loose⟩ = textCells x + State.cells ⟨ts,loose⟩ := by
  cases x with
  | none => simp [looseText,textCells]
  | some x =>
    simp only [State.cells,looseText,Option.toList_some,Multiset.coe_singleton,Multiset.singleton_add,
      Multiset.map_cons,Multiset.sum_cons,textCells]
    abel

theorem State.cells_text (ts : Multiset Item) (x : Text) (loose : Multiset Text) :
    State.cells ⟨ts,x ::ₘ loose⟩ = cell x.1 (.text x.2) + State.cells ⟨ts,loose⟩ := by
  have h := State.cells_loose ts (some x) loose
  simpa [looseText,textCells] using h

variable (al : Allocator Addr Block) (fuel : ℕ)

/-- What a call made of an item: nothing for want of memory, or a tree that the program holds. -/
def Gains (P : Item → Prop) (s : State) (r : Ptr) (s' : State) : Prop :=
  r = none ∧ ¬ al.Total ∧ s' = s ∨ ∃ t, r = some t.addr ∧ P t ∧ s' = { s with roots := t ::ₘ s.roots }

def Item.shared (b : Addr) (name : Option Text) (y : Item) : Item :=
  .reference b (y.node none none).type (y.node none none).valuestring (y.node none none).valueint
    (y.node none none).valuedouble name (y.node none none).child

def Indexed (ch l : List Item) (u : Item) (r : List Item) (which : ℤ) : Prop :=
  ch = l ++ u :: r ∧ which.toNat = l.length

def Named (ch l : List Item) (u : Item) (r : List Item) (str : CString) : Prop :=
  ch = l ++ u :: r ∧ (∀ x ∈ l, x.isNamed str = false) ∧ u.isNamed str = true

/-- `Call s prog out`: a program that holds the trees of `s` may call `prog`, and `out` tells what
it returns and what the program holds then. -/
inductive Call : {α : Type} → State → Prog α → (α → State → Prop) → Prop
  | create {s : State} {f : Node → Node} {ty : CJsonType} {vi : ℤ} {vd : F64} :
      f Node.zero = ⟨none,none,none,ty,false,none,vi,vd,none⟩ →
      Call s (create al f) (Gains al (fun t => ∃ b, t = .mk b ty none vi vd none []) s)
  | createString {s : State} (str : CString) :
      Call s (createString al (.outside str))
        (Gains al (fun t => ∃ b vs, Copies al str vs ∧ t = .mk b .string vs 0 0 none []) s)
  | createIntArray {s : State} (numbers : List (ℤ × F64)) : al.Total →
      Call s (createIntArray al numbers) (Gains al (fun t => ∃ b us,
        List.Forall₂ (fun n u => ∃ b, u = .mk b .number none n.1 n.2 none []) numbers us ∧
          t = .mk b .array none 0 0 none us) s)
  | createStringArray {s : State} (strings : List CString) : al.Total →
      Call s (createStringArray al (strings.map .outside)) (Gains al (fun t => ∃ b us,
        List.Forall₂ (fun str u => ∃ b vs, Copies al str vs ∧ u = .mk b .string vs 0 0 none [])
          strings us ∧ t = .mk b .array none 0 0 none us) s)
  | duplicate {y t : Item} {put : Item → Item} {ts : Multiset Item} {loose : Multiset Text} :
      Within y t put → y.Owned → 2 * y.size ≤ fuel →
      Call ⟨t ::ₘ ts,loose⟩ (duplicate al fuel fuel (some y.addr) true)
        (Gains al (Copy y) ⟨t ::ₘ ts,loose⟩)
  | duplicateShallow {y t : Item} {put : Item → Item} {ts : Multiset Item} {loose : Multiset Text} :
      Within y t put → y.Owned → 1 < fuel →
      Call ⟨t ::ₘ ts,loose⟩ (duplicate al fuel fuel (some y.addr) false)
        (Gains al (fun u => u.tree = y.tree.withChild [] ∧ u.size = 1) ⟨t ::ₘ ts,loose⟩)
  | parse {p : Platform} {s : State} {m : Bytes} : Parse.cJSONParse p m ≠ .fault →
      3 * m.length + 3 ≤ fuel → m.length ≤ INT_MAX →
      Call s (parse al fuel p (some m)) fun r s' =>
        Gains al (Reading p m) s r s' ∨ Parse.cJSONParse p m = .null ∧ r = none ∧ s' = s
  | parseText {p : Platform} {ts : Multiset Item} {x : Text} {loose : Multiset Text} :
      Parse.cJSONParse p (x.2.bytes ++ [0]) ≠ .fault → 3 * (x.2.bytes ++ [0]).length + 3 ≤ fuel →
      (x.2.bytes ++ [0]).length ≤ INT_MAX → Call ⟨ts,x ::ₘ loose⟩
        (do let s ← readString (.block x.1); parse al fuel p (some (s.bytes ++ [0])))
        fun r s' => Gains al (Reading p (x.2.bytes ++ [0])) ⟨ts,x ::ₘ loose⟩ r s' ∨
          Parse.cJSONParse p (x.2.bytes ++ [0]) = .null ∧ r = none ∧ s' = ⟨ts,x ::ₘ loose⟩
  | delete {t : Item} {ts : Multiset Item} {loose : Multiset Text} : t.size < fuel →
      Call ⟨t ::ₘ ts,loose⟩ (delete fuel (some t.addr)) fun _ s => s = ⟨ts,loose⟩
  | print {p : Platform} {y t : Item} {put : Item → Item} {ts : Multiset Item} {loose : Multiset Text} :
      Within y t put → y.Owned → y.size < fuel → (CJson.printValue p true 0 y.tree).length ≤ 10^9 →
      Call ⟨t ::ₘ ts,loose⟩ (print al fuel p (some y.addr))
        fun r s => ∃ x, Copies al (valueText p true 0 y) x ∧ r = textPtr x ∧
          s = ⟨t ::ₘ ts,looseText x + loose⟩
  | printUnformatted {p : Platform} {y t : Item} {put : Item → Item} {ts : Multiset Item}
      {loose : Multiset Text} : Within y t put → y.Owned → y.size < fuel →
      (CJson.printValue p false 0 y.tree).length ≤ 10^9 →
      Call ⟨t ::ₘ ts,loose⟩ (printUnformatted al fuel p (some y.addr))
        fun r s => ∃ x, Copies al (valueText p false 0 y) x ∧ r = textPtr x ∧
          s = ⟨t ::ₘ ts,looseText x + loose⟩
  | free {ts : Multiset Item} {x : Text} {loose : Multiset Text} :
      Call ⟨ts,x ::ₘ loose⟩ (Prog.free x.1) fun _ s => s = ⟨ts,loose⟩
  | getArraySize {c : Container} {ch : List Item} {t : Item} {put : Item → Item}
      {ts : Multiset Item} {loose : Multiset Text} : Within (c.holding ch) t put →
      t.size < fuel → ch.length ≤ INT_MAX → Call ⟨t ::ₘ ts,loose⟩ (getArraySize fuel (some c.addr))
        fun r s => r = ch.length ∧ s = ⟨t ::ₘ ts,loose⟩
  | getArrayItem {c : Container} {ch : List Item} {t : Item} {put : Item → Item}
      {ts : Multiset Item} {loose : Multiset Text} (item : ℤ) : Within (c.holding ch) t put →
      t.size < fuel → Call ⟨t ::ₘ ts,loose⟩ (getArrayItem fuel (some c.addr) item)
        fun r s => r = ch[item.toNat]?.map Item.addr ∧ s = ⟨t ::ₘ ts,loose⟩
  | getObjectItem {c : Container} {ch : List Item} {t : Item} {put : Item → Item}
      {ts : Multiset Item} {loose : Multiset Text} (str : CString) : Within (c.holding ch) t put →
      t.size < fuel → Call ⟨t ::ₘ ts,loose⟩ (getObjectItem fuel (some c.addr) (.outside str))
        fun r s => r = (ch.find? (Item.isNamed str)).map Item.addr ∧ s = ⟨t ::ₘ ts,loose⟩
  | addItemToArray {c : Container} {ch : List Item} {t u : Item} {put : Item → Item}
      {ts : Multiset Item} {loose : Multiset Text} : Within (c.holding ch) t put → t.size < fuel →
      Call ⟨t ::ₘ u ::ₘ ts,loose⟩ (addItemToArray fuel (some c.addr) (some u.addr))
        fun _ s => s = ⟨put (c.holding (ch ++ [u])) ::ₘ ts,loose⟩
  | addItemToObject {c : Container} {ch : List Item} {t u : Item} {put : Item → Item}
      {ts : Multiset Item} {loose : Multiset Text} (str : CString) : Within (c.holding ch) t put →
      t.size < fuel → Call ⟨t ::ₘ u ::ₘ ts,loose⟩
        (addItemToObject al fuel (some c.addr) (.outside str) (some u.addr))
        fun _ s => ∃ name, Copies al str name ∧ s = ⟨put (c.holding (ch ++ [u.named name])) ::ₘ ts,loose⟩
  | addItemReferenceToArray {c : Container} {ch : List Item} {t y y' : Item} {put put' : Item → Item}
      {ts : Multiset Item} {loose : Multiset Text} : Within (c.holding ch) t put → t.size < fuel →
      Within y y' put' → y' ∈ t ::ₘ ts →
      Call ⟨t ::ₘ ts,loose⟩ (addItemReferenceToArray al fuel (some c.addr) (some y.addr))
        fun _ s => ¬ al.Total ∧ s = ⟨t ::ₘ ts,loose⟩ ∨
          ∃ b, s = ⟨put (c.holding (ch ++ [y.shared b none])) ::ₘ ts,loose⟩
  | addItemReferenceToObject {c : Container} {ch : List Item} {t y y' : Item} {put put' : Item → Item}
      {ts : Multiset Item} {loose : Multiset Text} (str : CString) : Within (c.holding ch) t put →
      t.size < fuel → Within y y' put' → y' ∈ t ::ₘ ts → Call ⟨t ::ₘ ts,loose⟩
        (addItemReferenceToObject al fuel (some c.addr) (.outside str) (some y.addr))
        fun _ s => ¬ al.Total ∧ s = ⟨t ::ₘ ts,loose⟩ ∨ ∃ b name, Copies al str name ∧
          s = ⟨put (c.holding (ch ++ [y.shared b name])) ::ₘ ts,loose⟩
  | detachItemFromArray {c : Container} {ch l r : List Item} {t u : Item} {put : Item → Item}
      {ts : Multiset Item} {loose : Multiset Text} {which : ℤ} : Within (c.holding ch) t put →
      t.size < fuel → Indexed ch l u r which →
      Call ⟨t ::ₘ ts,loose⟩ (detachItemFromArray fuel (some c.addr) which)
        fun p s => p = some u.addr ∧ s = ⟨put (c.holding (l ++ r)) ::ₘ u ::ₘ ts,loose⟩
  | detachItemFromObject {c : Container} {ch l r : List Item} {t u : Item} {put : Item → Item}
      {ts : Multiset Item} {loose : Multiset Text} {str : CString} : Within (c.holding ch) t put →
      t.size < fuel → ch.length ≤ INT_MAX → Named ch l u r str →
      Call ⟨t ::ₘ ts,loose⟩ (detachItemFromObject fuel (some c.addr) (.outside str))
        fun p s => p = some u.addr ∧ s = ⟨put (c.holding (l ++ r)) ::ₘ u ::ₘ ts,loose⟩
  | detachMissing {c : Container} {ch : List Item} {t : Item} {put : Item → Item}
      {ts : Multiset Item} {loose : Multiset Text} {which : ℤ} : Within (c.holding ch) t put →
      t.size < fuel → ch.length ≤ which.toNat →
      Call ⟨t ::ₘ ts,loose⟩ (detachItemFromArray fuel (some c.addr) which)
        fun p s => p = none ∧ s = ⟨t ::ₘ ts,loose⟩
  | detachUnnamed {c : Container} {ch : List Item} {t : Item} {put : Item → Item}
      {ts : Multiset Item} {loose : Multiset Text} {str : CString} : Within (c.holding ch) t put →
      t.size < fuel → ch.length ≤ INT_MAX → (∀ x ∈ ch, x.isNamed str = false) →
      Call ⟨t ::ₘ ts,loose⟩ (detachItemFromObject fuel (some c.addr) (.outside str))
        fun p s => p = none ∧ s = ⟨t ::ₘ ts,loose⟩
  | deleteItemFromArray {c : Container} {ch l r : List Item} {t u : Item} {put : Item → Item}
      {ts : Multiset Item} {loose : Multiset Text} {which : ℤ} : Within (c.holding ch) t put →
      t.size < fuel → Indexed ch l u r which →
      Call ⟨t ::ₘ ts,loose⟩ (deleteItemFromArray fuel (some c.addr) which)
        fun _ s => s = ⟨put (c.holding (l ++ r)) ::ₘ ts,loose⟩
  | deleteItemFromObject {c : Container} {ch l r : List Item} {t u : Item} {put : Item → Item}
      {ts : Multiset Item} {loose : Multiset Text} {str : CString} : Within (c.holding ch) t put →
      t.size < fuel → ch.length ≤ INT_MAX → Named ch l u r str →
      Call ⟨t ::ₘ ts,loose⟩ (deleteItemFromObject fuel (some c.addr) (.outside str))
        fun _ s => s = ⟨put (c.holding (l ++ r)) ::ₘ ts,loose⟩
  | deleteMissing {c : Container} {ch : List Item} {t : Item} {put : Item → Item}
      {ts : Multiset Item} {loose : Multiset Text} {which : ℤ} : Within (c.holding ch) t put →
      t.size < fuel → ch.length ≤ which.toNat →
      Call ⟨t ::ₘ ts,loose⟩ (deleteItemFromArray fuel (some c.addr) which)
        fun _ s => s = ⟨t ::ₘ ts,loose⟩
  | deleteUnnamed {c : Container} {ch : List Item} {t : Item} {put : Item → Item}
      {ts : Multiset Item} {loose : Multiset Text} {str : CString} : Within (c.holding ch) t put →
      t.size < fuel → ch.length ≤ INT_MAX → (∀ x ∈ ch, x.isNamed str = false) →
      Call ⟨t ::ₘ ts,loose⟩ (deleteItemFromObject fuel (some c.addr) (.outside str))
        fun _ s => s = ⟨t ::ₘ ts,loose⟩
  | replaceItemInArray {c : Container} {ch l r : List Item} {t u x : Item} {put : Item → Item}
      {ts : Multiset Item} {loose : Multiset Text} {which : ℤ} : Within (c.holding ch) t put →
      t.size < fuel → Indexed ch l u r which →
      Call ⟨t ::ₘ x ::ₘ ts,loose⟩ (replaceItemInArray fuel (some c.addr) which (some x.addr))
        fun _ s => s = ⟨put (c.holding (l ++ x :: r)) ::ₘ ts,loose⟩
  | replaceItemInObject {c : Container} {ch l r : List Item} {t u x : Item} {put : Item → Item}
      {ts : Multiset Item} {loose : Multiset Text} {str : CString} : Within (c.holding ch) t put →
      t.size < fuel → ch.length ≤ INT_MAX → Named ch l u r str → Call ⟨t ::ₘ x ::ₘ ts,loose⟩
        (replaceItemInObject al fuel (some c.addr) (.outside str) (some x.addr))
        fun _ s => ∃ name, Copies al str name ∧
          s = ⟨put (c.holding (l ++ x.named name :: r)) ::ₘ ts,looseText x.string + loose⟩
  | replaceMissing {c : Container} {ch : List Item} {t : Item} {put : Item → Item}
      {ts : Multiset Item} {loose : Multiset Text} {which : ℤ} (newitem : Ptr) :
      Within (c.holding ch) t put → t.size < fuel → ch.length ≤ which.toNat →
      Call ⟨t ::ₘ ts,loose⟩ (replaceItemInArray fuel (some c.addr) which newitem)
        fun _ s => s = ⟨t ::ₘ ts,loose⟩
  | replaceUnnamed {c : Container} {ch : List Item} {t : Item} {put : Item → Item}
      {ts : Multiset Item} {loose : Multiset Text} {str : CString} (newitem : Ptr) :
      Within (c.holding ch) t put → t.size < fuel → ch.length ≤ INT_MAX →
      (∀ x ∈ ch, x.isNamed str = false) →
      Call ⟨t ::ₘ ts,loose⟩ (replaceItemInObject al fuel (some c.addr) (.outside str) newitem)
        fun _ s => s = ⟨t ::ₘ ts,loose⟩

variable {al fuel}

theorem Within.spec {α : Type} {c : Container} {ch : List Item} {t : Item} {put : Item → Item}
    (hw : Within (c.holding ch) t put) {s : State} {prog : Prog α} {out : α → State → Prop}
    (extra rest : Cells) (hs : s.cells = t.cells none none + extra + rest)
    (h : ∀ prev next, Spec (family c.addr (c.node prev next) ch + extra) prog fun r cs =>
      ∃ ch' extra' s', out r s' ∧ s'.cells = (put (c.holding ch')).cells none none + extra' + rest ∧
        cs = family c.addr (c.node prev next) ch' + extra') :
    Spec s.cells prog fun r cs => ∃ s', out r s' ∧ cs = s'.cells := by
  obtain ⟨prev,next,others,hput⟩ := hw.cells none none
  have ht : t.cells none none = (c.holding ch).cells prev next + others := by
    rw [← (hput (c.holding ch) rfl).2,hw.put_self]
  refine Spec.tail (h prev next) (show _ = _ + (textCells c.valuestring + textCells c.string + others +
    rest) by rw [hs,ht,c.holding_cells]; abel) ?_
  rintro r _ ⟨ch',extra',s',hout,hs',rfl⟩
  refine ⟨s',hout,?_⟩
  rw [hs',(hput (c.holding ch') rfl).2,c.holding_cells]
  abel

/-- The same for a call that needs nothing but the item. -/
theorem Within.alone {α : Type} {c : Container} {ch : List Item} {t : Item} {put : Item → Item}
    (hw : Within (c.holding ch) t put) {ts : Multiset Item} {loose : Multiset Text} {prog : Prog α}
    {out : α → State → Prop} (h : ∀ prev next, Spec (family c.addr (c.node prev next) ch) prog fun r cs =>
      ∃ ch' extra s', out r s' ∧ s'.cells = (put (c.holding ch')).cells none none + extra +
        State.cells ⟨ts,loose⟩ ∧ cs = family c.addr (c.node prev next) ch' + extra) :
    Spec (State.cells ⟨t ::ₘ ts,loose⟩) prog fun r cs => ∃ s', out r s' ∧ cs = s'.cells := by
  refine hw.spec 0 (State.cells ⟨ts,loose⟩) (by rw [State.cells_cons,add_zero]) fun prev next => ?_
  rw [add_zero]
  exact h prev next

theorem Within.same {α : Type} {c : Container} {ch : List Item} {t : Item} {put : Item → Item}
    (hw : Within (c.holding ch) t put) {ts : Multiset Item} {loose : Multiset Text} {prog : Prog α}
    {post : α → Prop} {out : α → State → Prop} (hout : ∀ r, post r → out r ⟨t ::ₘ ts,loose⟩)
    (h : ∀ prev next, Spec (family c.addr (c.node prev next) ch) prog fun r cs =>
      post r ∧ cs = family c.addr (c.node prev next) ch) :
    Spec (State.cells ⟨t ::ₘ ts,loose⟩) prog fun r cs => ∃ s', out r s' ∧ cs = s'.cells := by
  refine hw.alone fun prev next => (h prev next).mono ?_
  rintro r _ ⟨hr,rfl⟩
  exact ⟨ch,0,⟨t ::ₘ ts,loose⟩,hout r hr,by rw [hw.put_self,add_zero,State.cells_cons],
    (add_zero _).symm⟩

theorem Within.kept {α : Type} {c : Container} {ch : List Item} {t : Item} {put : Item → Item}
    (hw : Within (c.holding ch) t put) {ts : Multiset Item} {loose : Multiset Text} {prog : Prog α}
    {out : α → State → Prop} (hout : ∀ r, out r ⟨t ::ₘ ts,loose⟩)
    (h : ∀ prev next, Spec (family c.addr (c.node prev next) ch) prog fun _ cs =>
      cs = family c.addr (c.node prev next) ch) :
    Spec (State.cells ⟨t ::ₘ ts,loose⟩) prog fun r cs => ∃ s', out r s' ∧ cs = s'.cells :=
  hw.same (fun r (_ : True) => hout r) fun prev next => (h prev next).mono fun _ _ hcs => ⟨trivial,hcs⟩

theorem Within.cells_le {y t : Item} {put : Item → Item} (hy : Within y t put) {ts : Multiset Item}
    (ht : t ∈ ts) (loose : Multiset Text) :
    ∃ prev next rest, State.cells ⟨ts,loose⟩ = y.cells prev next + rest := by
  obtain ⟨us,rfl⟩ := Multiset.exists_cons_of_mem ht
  obtain ⟨prev,next,others,hput⟩ := hy.cells none none
  refine ⟨prev,next,others + State.cells ⟨us,loose⟩,?_⟩
  rw [State.cells_cons,← add_assoc,← (hput y rfl).2,hy.put_self]

theorem Gains.of_makes {P : Item → Prop} {s : State} {r : Ptr} {cs : Cells} (h : Makes al P r cs) :
    ∃ s', Gains al P s r s' ∧ cs + s.cells = s'.cells := by
  rcases h with ⟨hr,hal,rfl⟩ | ⟨t,hr,ht,rfl⟩
  · exact ⟨s,Or.inl ⟨hr,hal,rfl⟩,zero_add _⟩
  · exact ⟨{ s with roots := t ::ₘ s.roots },Or.inr ⟨t,hr,ht,rfl⟩,(State.cells_cons t s.roots s.loose).symm⟩

theorem shares {y y' : Item} {put' : Item → Item} (hy : Within y y' put') {ts : Multiset Item}
    (hy' : y' ∈ ts) (loose : Multiset Text) :
    Spec (State.cells ⟨ts,loose⟩) (createReference al (some y.addr)) fun r cs =>
      r = none ∧ ¬ al.Total ∧ cs = State.cells ⟨ts,loose⟩ ∨
      ∃ b, r = some b ∧ cs = State.cells ⟨y.shared b none ::ₘ ts,loose⟩ := by
  obtain ⟨prev,next,rest,hcells⟩ := hy.cells_le hy' loose
  refine Spec.tail (createReference_spec al y prev next) hcells ?_
  rintro r _ (⟨hr,hal,rfl⟩ | ⟨b,hr,rfl⟩)
  · exact Or.inl ⟨hr,hal,hcells.symm⟩
  · refine Or.inr ⟨b,hr,?_⟩
    rw [State.cells_cons,hcells,add_assoc]
    cases y <;> rfl

theorem adds {c : Container} {ch : List Item} {t : Item} {put : Item → Item}
    (hw : Within (c.holding ch) t put) (hf : t.size < fuel) (u : Item) {ts : Multiset Item}
    {loose : Multiset Text} :
    Spec (State.cells ⟨t ::ₘ u ::ₘ ts,loose⟩) (addItemToArray fuel (some c.addr) (some u.addr))
      fun _ cs => ∃ s' : State, s' = ⟨put (c.holding (ch ++ [u])) ::ₘ ts,loose⟩ ∧ cs = s'.cells := by
  refine hw.spec (u.cells none none) (State.cells ⟨ts,loose⟩)
    (by rw [State.cells_cons,State.cells_cons,add_assoc]) fun prev next => ?_
  refine (addItemToArray_spec c.addr _ (hw.length_lt.trans hf).le u).mono ?_
  rintro _ _ rfl
  exact ⟨ch ++ [u],0,_,rfl,by rw [State.cells_cons,add_zero],(add_zero _).symm⟩

theorem addsNamed {c : Container} {ch : List Item} {t : Item} {put : Item → Item}
    (hw : Within (c.holding ch) t put) (hf : t.size < fuel) (str : CString) (u : Item) {ts : Multiset Item}
    {loose : Multiset Text} : Spec (State.cells ⟨t ::ₘ u ::ₘ ts,loose⟩)
      (addItemToObject al fuel (some c.addr) (.outside str) (some u.addr)) fun _ cs => ∃ s' : State,
        (∃ name, Copies al str name ∧ s' = ⟨put (c.holding (ch ++ [u.named name])) ::ₘ ts,loose⟩) ∧
          cs = s'.cells := by
  refine hw.spec (u.cells none none + 0) (State.cells ⟨ts,loose⟩)
    (by rw [State.cells_cons,State.cells_cons,add_zero,add_assoc]) fun prev next => ?_
  rw [← add_assoc]
  refine (addItemToObject_spec c.addr _ al (outside_reads str) (hw.length_lt.trans hf).le u).mono ?_
  rintro _ _ ⟨name,hname,rfl⟩
  exact ⟨ch ++ [u.named name],0,_,⟨name,hname,rfl⟩,by rw [State.cells_cons,add_zero],rfl⟩

theorem addNothing_spec (fuel : ℕ) (a : Addr) (n : Node) (ts : List Item) :
    Spec (family a n ts) (addItemToArray fuel (some a) none) fun _ cs => cs = family a n ts :=
  readNode_spec rfl (Spec.pure rfl)

theorem parses {p : Platform} {s : State} {m : Bytes} (hm : Parse.cJSONParse p m ≠ .fault)
    (hf : 3 * m.length + 3 ≤ fuel) (hmax : m.length ≤ INT_MAX) :
    Spec s.cells (parse al fuel p (some m)) fun r cs => ∃ s',
      (Gains al (Reading p m) s r s' ∨ Parse.cJSONParse p m = .null ∧ r = none ∧ s' = s) ∧
        cs = s'.cells := by
  refine Spec.tail (parse_spec al fuel p hf hmax hm) (zero_add _).symm ?_
  rintro r cs (hmakes | ⟨hnull,rfl,rfl⟩)
  · obtain ⟨s',hgains,hcs⟩ := Gains.of_makes hmakes
    exact ⟨s',Or.inl hgains,hcs⟩
  · exact ⟨s,Or.inr ⟨hnull,rfl,rfl⟩,zero_add _⟩

theorem creates {β : Type} {create : β → Prog Ptr} {P : β → Item → Prop} {s : State} (hal : al.Total)
    (h : ∀ x, Spec 0 (create x) (Makes al (P x))) (xs : List β) :
    Spec s.cells (createArrayOf al (xs.map create)) fun r cs => ∃ s' : State, Gains al (fun t : Item =>
      ∃ b us, List.Forall₂ P xs us ∧ t = .mk b .array none 0 0 none us) s r s' ∧ cs = s'.cells := by
  have hentries : List.Forall₂ (fun c Q => Spec 0 c (Makes al Q)) (xs.map create) (xs.map P) := by
    rw [List.forall₂_map_left_iff,List.forall₂_map_right_iff,List.forall₂_same]
    exact fun x _ => h x
  refine Spec.tail (createArrayOf_spec al hal hentries) (zero_add _).symm ?_
  intro r cs hmakes
  simp only [List.forall₂_map_left_iff] at hmakes
  exact Gains.of_makes hmakes

theorem prints {y t : Item} {put : Item → Item} (hy : Within y t put) {ts : Multiset Item}
    {loose : Multiset Text} {prog : Prog Ptr} {str : CString}
    (h : ∀ prev next, Spec (y.cells prev next) prog fun r cs =>
      ∃ own, cs = own + y.cells prev next ∧ Prints al str r own) :
    Spec (State.cells ⟨t ::ₘ ts,loose⟩) prog fun r cs => ∃ s' : State, (∃ x, Copies al str x ∧
      r = textPtr x ∧ s' = ⟨t ::ₘ ts,looseText x + loose⟩) ∧ cs = s'.cells := by
  obtain ⟨prev,next,rest,hcells⟩ := hy.cells_le (Multiset.mem_cons_self t ts) loose
  refine Spec.tail (h prev next) hcells ?_
  rintro r _ ⟨_,rfl,x,hx,hr,rfl⟩
  exact ⟨⟨t ::ₘ ts,looseText x + loose⟩,⟨x,hx,hr,rfl⟩,by rw [add_assoc,← hcells,State.cells_loose]⟩

theorem copies {y t : Item} {put : Item → Item} (hy : Within y t put) {ts : Multiset Item}
    {loose : Multiset Text} {prog : Prog Ptr} {P : Item → Prop}
    (h : ∀ prev next, Spec (y.cells prev next) prog fun r cs =>
      ∃ own, cs = own + y.cells prev next ∧ Makes al P r own) :
    Spec (State.cells ⟨t ::ₘ ts,loose⟩) prog fun r cs =>
      ∃ s', Gains al P ⟨t ::ₘ ts,loose⟩ r s' ∧ cs = s'.cells := by
  obtain ⟨prev,next,rest,hcells⟩ := hy.cells_le (Multiset.mem_cons_self t ts) loose
  refine Spec.tail (h prev next) hcells ?_
  rintro r _ ⟨own,rfl,hmakes⟩
  rw [add_assoc,← hcells]
  exact Gains.of_makes hmakes

/-- Every call that is allowed does what it is said to do, and has no memory error. -/
theorem Call.spec {α : Type} {s : State} {prog : Prog α} {out : α → State → Prop}
    (h : Call al fuel s prog out) : Spec s.cells prog fun r cs => ∃ s', out r s' ∧ cs = s'.cells := by
  cases h with
  | create hf =>
    refine Spec.tail (create_spec al hf) (zero_add _).symm ?_
    intro r cs hmakes
    exact Gains.of_makes hmakes
  | createString str =>
    refine Spec.tail (createString_spec al (outside_reads str))
      (zero_add _).symm ?_
    rintro r _ ⟨made,rfl,hmakes⟩
    rw [add_zero]
    exact Gains.of_makes hmakes
  | createIntArray numbers hal =>
    exact creates hal (fun n => create_spec al rfl) numbers
  | createStringArray strings hal =>
    have hstring (str : CString) : Spec 0 (CJsonHeap.createString al (.outside str)) (Makes al fun u =>
        ∃ b vs, Copies al str vs ∧ u = .mk b .string vs 0 0 none []) := by
      refine (createString_spec al (outside_reads str)).mono ?_
      rintro r _ ⟨made,rfl,hmakes⟩
      rwa [add_zero]
    rw [CJsonHeap.createStringArray,List.map_map]
    exact creates hal hstring strings
  | @duplicate y t put ts loose hy howned hf =>
    have hsize := y.size_pos
    exact copies hy fun prev next => duplicate_spec al y howned hf (by omega) prev next
  | @duplicateShallow y t put ts loose hy howned hf =>
    obtain ⟨f,rfl⟩ := Nat.exists_eq_succ_of_ne_zero (Nat.ne_of_gt (Nat.zero_lt_of_lt hf))
    exact copies hy fun prev next => duplicate_shallow al y howned hf prev next
  | parse hm hf hmax =>
    exact parses hm hf hmax
  | @parseText p ts x loose hm hf hmax =>
    exact readString_block (State.cells_text ts x loose) (parses hm hf hmax)
  | @delete t ts loose hf =>
    refine Spec.tail (delete_spec [t] (by simpa [sizes] using hf) none)
      (show _ = _ + State.cells ⟨ts,loose⟩ by rw [chain_singleton,State.cells_cons]) ?_
    rintro _ _ rfl
    exact ⟨⟨ts,loose⟩,rfl,zero_add _⟩
  | @print p y t put ts loose hy howned hf hmax =>
    exact prints hy fun prev next => print_spec y howned hf hmax prev next
  | @printUnformatted p y t put ts loose hy howned hf hmax =>
    exact prints hy fun prev next => printUnformatted_spec y howned hf hmax prev next
  | @free ts x loose =>
    exact Spec.last (Spec.free (State.cells_text ts x loose) (Spec.pure ⟨_,rfl,rfl⟩))
  | @getArraySize c ch t put ts loose hw hf hmax =>
    exact hw.same (fun _ hr => ⟨hr,rfl⟩) fun prev next =>
      getArraySize_spec c.addr _ (hw.length_lt.trans hf) hmax
  | @getArrayItem c ch t put ts loose item hw hf =>
    exact hw.same (fun _ hr => ⟨hr,rfl⟩) fun prev next =>
      getArrayItem_spec c.addr _ (hw.length_lt.trans hf) item
  | @getObjectItem c ch t put ts loose str hw hf =>
    refine hw.same (fun _ hr => ⟨hr,rfl⟩) fun prev next => ?_
    simpa using getObjectItem_spec c.addr (c.node prev next) (outside_reads str) (hw.length_lt.trans hf)
  | @addItemToArray c ch t u put ts loose hw hf =>
    exact adds hw hf u
  | @addItemToObject c ch t u put ts loose str hw hf =>
    exact addsNamed hw hf str u
  | @addItemReferenceToArray c ch t y y' put put' ts loose hw hf hy hy' =>
    unfold CJsonHeap.addItemReferenceToArray
    refine (shares hy hy' loose).bind ?_
    rintro r _ (⟨rfl,hal,rfl⟩ | ⟨b,rfl,rfl⟩)
    · exact hw.kept (fun _ => Or.inl ⟨hal,rfl⟩) fun prev next => addNothing_spec fuel c.addr _ ch
    · rw [Multiset.cons_swap]
      refine (adds hw hf (y.shared b none)).mono ?_
      rintro _ _ ⟨s',hs',hcs⟩
      exact ⟨s',Or.inr ⟨b,hs'⟩,hcs⟩
  | @addItemReferenceToObject c ch t y y' put put' ts loose str hw hf hy hy' =>
    unfold CJsonHeap.addItemReferenceToObject
    refine (shares hy hy' loose).bind ?_
    rintro r _ (⟨rfl,hal,rfl⟩ | ⟨b,rfl,rfl⟩)
    · exact Spec.pure ⟨⟨t ::ₘ ts,loose⟩,Or.inl ⟨hal,rfl⟩,rfl⟩
    · rw [Multiset.cons_swap]
      refine (addsNamed hw hf str (y.shared b none)).mono ?_
      rintro _ _ ⟨s',⟨name,hname,hs'⟩,hcs⟩
      exact ⟨s',Or.inr ⟨b,name,hname,hs'⟩,hcs⟩
  | @detachItemFromArray c ch l r t u put ts loose which hw hf hat =>
    refine hw.alone fun prev next => ?_
    refine (detachItemFromArray_spec c.addr _ l r u hat.1 (hw.length_lt.trans hf) hat.2).mono ?_
    rintro _ _ ⟨rfl,rfl⟩
    exact ⟨l ++ r,u.cells none none,⟨_,loose⟩,⟨rfl,rfl⟩,
      by rw [State.cells_cons,State.cells_cons,add_assoc],rfl⟩
  | @detachItemFromObject c ch l r t u put ts loose str hw hf hmax hat =>
    refine hw.spec 0 (State.cells ⟨ts,loose⟩) (by rw [State.cells_cons,add_zero]) fun prev next => ?_
    refine (detachItemFromObject_spec c.addr _ (outside_reads str) l r u hat.1 hat.2.1 hat.2.2
      (hw.length_lt.trans hf) hmax).mono ?_
    rintro _ _ ⟨rfl,rfl⟩
    exact ⟨l ++ r,u.cells none none,⟨_,loose⟩,⟨rfl,rfl⟩,
      by rw [State.cells_cons,State.cells_cons,add_assoc],add_zero _⟩
  | @detachMissing c ch t put ts loose which hw hf hat =>
    exact hw.same (fun _ hr => ⟨hr,rfl⟩) fun prev next =>
      detachItemFromArray_missing c.addr _ (hw.length_lt.trans hf) hat
  | @detachUnnamed c ch t put ts loose str hw hf hmax hat =>
    refine hw.same (fun _ hr => ⟨hr,rfl⟩) fun prev next => ?_
    simpa using detachItemFromObject_missing c.addr (c.node prev next) (outside_reads str) hat
      (hw.length_lt.trans hf) hmax
  | @deleteItemFromArray c ch l r t u put ts loose which hw hf hat =>
    have hu : u.size < fuel := (hw.member_size hat.1).trans hf
    refine hw.alone fun prev next => ?_
    refine (deleteItemFromArray_spec c.addr _ l r u hat.1 (hw.length_lt.trans hf) hu hat.2).mono ?_
    rintro _ _ rfl
    exact ⟨l ++ r,0,⟨_,loose⟩,rfl,by rw [State.cells_cons,add_zero],(add_zero _).symm⟩
  | @deleteItemFromObject c ch l r t u put ts loose str hw hf hmax hat =>
    have hu : u.size < fuel := (hw.member_size hat.1).trans hf
    refine hw.spec 0 (State.cells ⟨ts,loose⟩) (by rw [State.cells_cons,add_zero]) fun prev next => ?_
    refine (deleteItemFromObject_spec c.addr _ (outside_reads str) l r u hat.1 hat.2.1 hat.2.2
      (hw.length_lt.trans hf) hmax hu).mono ?_
    rintro _ _ rfl
    exact ⟨l ++ r,0,⟨_,loose⟩,rfl,by rw [State.cells_cons,add_zero],rfl⟩
  | @deleteMissing c ch t put ts loose which hw hf hat =>
    exact hw.kept (fun _ => rfl) fun prev next =>
      deleteItemFromArray_missing c.addr _ (hw.length_lt.trans hf) hat
  | @deleteUnnamed c ch t put ts loose str hw hf hmax hat =>
    refine hw.kept (fun _ => rfl) fun prev next => ?_
    simpa using deleteItemFromObject_missing c.addr (c.node prev next) (outside_reads str) hat
      (hw.length_lt.trans hf) hmax
  | @replaceItemInArray c ch l r t u x put ts loose which hw hf hat =>
    have hu : u.size < fuel := (hw.member_size hat.1).trans hf
    refine hw.spec (x.cells none none) (State.cells ⟨ts,loose⟩)
      (by rw [State.cells_cons,State.cells_cons,add_assoc]) fun prev next => ?_
    refine (replaceItemInArray_spec c.addr _ l r u x hat.1 (hw.length_lt.trans hf) hu hat.2 none none).mono ?_
    rintro _ _ rfl
    exact ⟨l ++ x :: r,0,⟨_,loose⟩,rfl,by rw [State.cells_cons,add_zero],(add_zero _).symm⟩
  | @replaceItemInObject c ch l r t u x put ts loose str hw hf hmax hat =>
    have hu : u.size < fuel := (hw.member_size hat.1).trans hf
    refine hw.spec (0 + x.cells none none) (State.cells ⟨ts,loose⟩)
      (by rw [State.cells_cons,State.cells_cons,zero_add,add_assoc]) fun prev next => ?_
    rw [← add_assoc]
    refine (replaceItemInObject_spec c.addr _ al (outside_reads str) l r u x hat.1 hat.2.1 hat.2.2
      (hw.length_lt.trans hf) hmax hu none none).mono ?_
    rintro _ _ ⟨name,hname,rfl⟩
    exact ⟨l ++ x.named name :: r,textCells x.string,⟨_,looseText x.string + loose⟩,
      ⟨name,hname,rfl⟩,by rw [State.cells_cons,State.cells_loose,add_assoc],add_zero _⟩
  | @replaceMissing c ch t put ts loose which newitem hw hf hat =>
    exact hw.kept (fun _ => rfl) fun prev next =>
      replaceItemInArray_missing c.addr _ (hw.length_lt.trans hf) hat newitem
  | @replaceUnnamed c ch t put ts loose str newitem hw hf hmax hat =>
    refine hw.kept (fun _ => rfl) fun prev next => ?_
    simpa using replaceItemInObject_missing c.addr (c.node prev next) al (outside_reads str) hat
      (hw.length_lt.trans hf) hmax newitem

/-- A program that only calls cJSON and goes on with what it gets. -/
inductive Client : Type 1
  | stop
  | call {α : Type} (prog : Prog α) (next : α → Client)

def Client.run : Client → Prog Unit
  | .stop => pure ()
  | .call prog next => do
    let r ← prog
    (next r).run

variable (al fuel)

/-- Judged by the trees alone, every call of the program is allowed and it ends as `post` says. -/
inductive Client.Safe (post : State → Prop) : State → Client → Prop
  | stop {s : State} : post s → Safe post s .stop
  | call {α : Type} {s : State} {prog : Prog α} {out : α → State → Prop} {next : α → Client} :
      Call al fuel s prog out → (∀ r s', out r s' → Safe post s' (next r)) →
      Safe post s (.call prog next)

/-- What holds of the trees holds of the heap: a program that is safe on trees has no memory error,
and the blocks it leaves are those of its trees and texts. -/
theorem Client.Safe.spec {post : State → Prop} {s : State} {client : Client}
    (h : client.Safe al fuel post s) :
    Spec s.cells client.run fun _ cs => ∃ s', post s' ∧ cs = s'.cells := by
  induction h with
  | stop hpost => exact Spec.pure ⟨_,hpost,rfl⟩
  | call hcall _ ih =>
    refine hcall.spec.bind ?_
    rintro r _ ⟨s',hout,rfl⟩
    exact ih r s' hout

end CJsonHeap
end WddProc
