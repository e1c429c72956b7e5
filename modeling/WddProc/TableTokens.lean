import WddProc.Stores
import WddProc.TableRender

/-!
# Values of a call in any table

A table needs only pointers to cells that are inside its text and apart. The values of a
call come to the cells in a line one after the other, and everything else stays.
-/

namespace WddProc
namespace StringTable

open LastWrite TextGrid

def STable.cellAt (t : STable) (i j : ℕ) : Option ℕ := (t.table[sTableGet t j i]?).join

def STable.cellText (t : STable) (i j : ℕ) : Option Bytes :=
  (t.cellAt i j).map fun p => (t.text.drop p).take t.colwidth

/-- The pointers of a table lead to separate cells in its text. -/
structure WellFormed (t : STable) : Prop where
  tableX : t.tableX < 2^31
  tableY : t.tableY < 2^31
  cell : ∀ i < t.tableX, ∀ j < t.tableY, ∃ p, t.cellAt i j = some p ∧
    p + t.colwidth ≤ t.text.length
  apart : ∀ i < t.tableX, ∀ j < t.tableY, ∀ i' < t.tableX, ∀ j' < t.tableY, ∀ p p',
    t.cellAt i j = some p → t.cellAt i' j' = some p' → ¬ (i = i' ∧ j = j') →
    p + t.colwidth ≤ p' ∨ p' + t.colwidth ≤ p

def padCell (w : ℕ) (v : Bytes) : Bytes := v ++ List.replicate (w - v.length) 32

/-- A table after some writes, which are all in it: their cells show the last value, and
nothing else has changed. -/
structure Filled (t t' : STable) (as : List Write) : Prop where
  fields : t' = { t with text := t'.text }
  length : t'.text.length = t.text.length
  cells : ∀ i < t.tableX, ∀ j < t.tableY, t'.cellText i j =
    ((last (Write.at i j) as).map (padCell t.colwidth)).or (t.cellText i j)
  frame : ∀ n, (∀ i < t.tableX, ∀ j < t.tableY, ∀ p, t.cellAt i j = some p →
    ¬ (p ≤ n ∧ n < p + t.colwidth)) → t'.text[n]? = t.text[n]?

theorem Filled.refl (t : STable) : Filled t t [] where
  fields := rfl
  length := rfl
  cells _ _ _ _ := rfl
  frame _ _ := rfl

theorem Filled.cellAt {t t' : STable} {as : List Write} (h : Filled t t' as) (i j : ℕ) :
    t'.cellAt i j = t.cellAt i j := by
  rw [h.fields]
  rfl

theorem Filled.dims {t t' : STable} {as : List Write} (h : Filled t t' as) :
    t'.tableX = t.tableX ∧ t'.tableY = t.tableY ∧ t'.colwidth = t.colwidth := by
  rw [h.fields]
  exact ⟨rfl,rfl,rfl⟩

theorem Filled.trans {t t₁ t₂ : STable} {as bs : List Write} (h : Filled t t₁ as)
    (h' : Filled t₁ t₂ bs) : Filled t t₂ (as ++ bs) where
  fields := by rw [h'.fields,h.fields]
  length := h'.length.trans h.length
  cells i hi j hj := by
    obtain ⟨hx,hy,hw⟩ := h.dims
    rw [h'.cells i (hx ▸ hi) j (hy ▸ hj),h.cells i hi j hj,hw,last_append,Option.map_or,Option.or_assoc]
  frame n hn := by
    obtain ⟨hx,hy,hw⟩ := h.dims
    rw [h'.frame n,h.frame n hn]
    intro i hi j hj p hp
    rw [h.cellAt] at hp
    rw [hw]
    exact hn i (hx ▸ hi) j (hy ▸ hj) p hp

theorem WellFormed.filled {t t' : STable} {as : List Write} (ht : WellFormed t) (h : Filled t t' as) :
    WellFormed t' := by
  have hlen := h.length
  rw [h.fields]
  refine ⟨ht.tableX,ht.tableY,fun i hi j hj => ?_,ht.apart⟩
  obtain ⟨p,hp,hle⟩ := ht.cell i hi j hj
  exact ⟨p,hp,hlen ▸ hle⟩

theorem window_congr {m m' : Bytes} {p w : ℕ} (h : ∀ n, p ≤ n → n < p + w → m'[n]? = m[n]?) :
    (m'.drop p).take w = (m.drop p).take w := by
  apply List.ext_getElem?
  intro o
  by_cases ho : o < w
  · rw [List.getElem?_take_of_lt ho,List.getElem?_take_of_lt ho,List.getElem?_drop,List.getElem?_drop]
    exact h (p + o) (by omega) (by omega)
  · rw [List.getElem?_eq_none (by simp; omega),List.getElem?_eq_none (by simp; omega)]

theorem poke_cell {m v : Bytes} {p w : ℕ} (hp : p + w ≤ m.length) (hv : v.length ≤ w) :
    ∃ m₁ m', poke m p (List.replicate w 32) = some m₁ ∧ poke m₁ p v = some m' ∧
      m'.length = m.length ∧ (m'.drop p).take w = padCell w v ∧
      ∀ n, ¬ (p ≤ n ∧ n < p + w) → m'[n]? = m[n]? := by
  obtain ⟨m₁,h₁⟩ := Option.isSome_iff_exists.mp
    ((poke_isSome_iff m p (List.replicate w 32)).mpr (by rw [List.length_replicate]; exact hp))
  have hlen₁ := poke_length h₁
  obtain ⟨m',h'⟩ := Option.isSome_iff_exists.mp ((poke_isSome_iff m₁ p v).mpr (by omega))
  refine ⟨m₁,m',h₁,h',(poke_length h').trans hlen₁,?_,?_⟩
  · apply List.ext_getElem?
    intro o
    by_cases ho : o < w
    · rw [List.getElem?_take_of_lt ho,List.getElem?_drop,getElem?_poke h',padCell]
      by_cases hin : o < v.length
      · rw [if_pos ⟨Nat.le_add_right p o,by omega⟩,Nat.add_sub_cancel_left,List.getElem?_append_left hin]
      · rw [if_neg (by omega),getElem?_poke h₁,List.length_replicate,
          if_pos ⟨Nat.le_add_right p o,by omega⟩,Nat.add_sub_cancel_left,
          List.getElem?_replicate_of_lt ho,List.getElem?_append_right (by omega),
          List.getElem?_replicate_of_lt (by omega)]
    · have hpad : (padCell w v).length = w := by simp [padCell]; omega
      rw [List.getElem?_eq_none (by simp; omega),List.getElem?_eq_none (by omega)]
  · intro n hn
    rw [getElem?_poke h',if_neg (by omega),getElem?_poke h₁,List.length_replicate,if_neg hn]

/-- A value that is accepted appears in its cell, and nothing else changes. -/
theorem sTableValueset_filled {t : STable} (ht : WellFormed t) {i j : ℕ} {v : CString}
    (ha : Write.Accepted t.tableX t.tableY t.colwidth ⟨i,j,v⟩) :
    ∃ t', sTableValueset t i j (some v) = some (1,t') ∧ Filled t t' [⟨i,j,v⟩] := by
  obtain ⟨⟨-,hi⟩,⟨-,hj⟩,hv⟩ := ha
  simp only [Int.ofNat_lt] at hi hj
  obtain ⟨p,hp,hle⟩ := ht.cell i hi j hj
  have hpointer : t.table[sTableGet t j i]? = some (some p) := Option.join_eq_some_iff.mp hp
  obtain ⟨m₁,m',hspaces,hvalue,hlen,hwindow,hframe⟩ := poke_cell hle hv
  have hin : ¬ (t.tableX ≤ i ∨ t.tableY ≤ j) := by omega
  have hset : sTableValueset t i j (some v) = some (1,{ t with text := m' }) := by
    simp only [sTableValueset,if_neg hin,if_neg (Nat.not_lt.mpr hv),hpointer,hspaces,
      Option.bind_eq_bind,Option.bind_some,hvalue]
  refine ⟨_,hset,rfl,hlen,?_,?_⟩
  · intro i' hi' j' hj'
    obtain ⟨p',hp',-⟩ := ht.cell i' hi' j' hj'
    have hbefore : t.cellText i' j' = some ((t.text.drop p').take t.colwidth) := by
      rw [STable.cellText,hp',Option.map_some]
    have hafter : STable.cellText { t with text := m' } i' j' =
        some ((m'.drop p').take t.colwidth) := by
      have hsame : STable.cellAt { t with text := m' } i' j' = some p' := hp'
      rw [STable.cellText,hsame,Option.map_some]
    rw [hafter,last_singleton,hbefore,Write.at]
    by_cases heq : i = i' ∧ j = j'
    · obtain ⟨rfl,rfl⟩ := heq
      obtain rfl : p = p' := Option.some.inj (hp.symm.trans hp')
      rw [if_pos ⟨rfl,rfl⟩,hwindow]
      rfl
    · have hne : ¬ ((i : ℤ) = i' ∧ (j : ℤ) = j') := by omega
      rw [if_neg hne,window_congr fun n hn hn' => hframe n ?_]
      · rfl
      · rcases ht.apart i hi j hj i' hi' j' hj' p p' hp hp' heq with h | h <;> omega
  · intro n hn
    exact hframe n (hn i hi j hj p hp)

theorem filled_followsWrites {t : STable} (ht : WellFormed t) :
    FollowsWrites t.tableX t.tableY t.colwidth fun as t' => Filled t t' as := by
  apply followsWrites_of ht.tableX ht.tableY
  · intro as t₁ i j v h ha
    obtain ⟨hx,hy,hw⟩ := h.dims
    rw [← hx,← hy,← hw] at ha
    obtain ⟨t₂,hset,h'⟩ := sTableValueset_filled (ht.filled h) ha
    exact ⟨t₂,hset,h.trans h'⟩
  · intro as t₁ i j v h ha
    obtain ⟨hx,hy,hw⟩ := h.dims
    rw [← hx,← hy,← hw] at ha
    exact sTableValueset_rejected ha

theorem cellPlace_add_le {x w i j i' j' : ℕ} (hi : i < x) (h : j < j' ∨ j = j' ∧ i < i') :
    cellPlace x w i j + w ≤ cellPlace x w i' j' := by
  have hcell := cell_le (w := w) hi
  unfold cellPlace
  rcases h with hj | ⟨rfl,hlt⟩
  · have hrows : (2 * j + 3 + 1) * wide x w ≤ (2 * j' + 3) * wide x w :=
      Nat.mul_le_mul_right _ (by omega)
    rw [Nat.succ_mul] at hrows
    omega
  · have hcols : (i + 1) * (w + 1) ≤ i' * (w + 1) := Nat.mul_le_mul_right _ hlt
    rw [Nat.succ_mul] at hcols
    omega

theorem Laid.cellAt {x y w : ℕ} {title : Bytes} {cells : ℕ → ℕ → Bytes} {t : STable}
    (h : Laid x y w title cells t) {i j : ℕ} (hi : i < x) (hj : j < y) :
    t.cellAt i j = some (cellPlace x w i j) := by
  rw [STable.cellAt,sTableGet,h.tableY,h.table i hi j hj]
  rfl

theorem cellPlace_lt {x y w i j : ℕ} (hi : i < x) (hj : j < y) :
    cellPlace x w i j + w < (2 * y + 3) * wide x w := by
  have hcell := cell_le (w := w) hi
  have hlt : (2 * j + 3) * wide x w + (i * (w + 1) + 1 + w) < (2 * y + 3) * wide x w :=
    place_lt (by omega) (by omega)
  rw [cellPlace]
  omega

theorem Laid.cellText {x y w : ℕ} {title : Bytes} {cells : ℕ → ℕ → Bytes} {t : STable}
    (h : Laid x y w title cells t) {i j : ℕ} (hi : i < x) (hj : j < y)
    (hlen : (cells i j).length ≤ w) : t.cellText i j = some (padCell w (cells i j)) := by
  obtain ⟨rest,htext⟩ := h.text
  have hlt := cellPlace_lt (w := w) hi hj
  rw [STable.cellText,h.cellAt hi hj,Option.map_some,htext,h.colwidth,
    List.drop_append_of_le_length (by rw [lines_length]; omega),
    List.take_append_of_le_length (by rw [List.length_drop,lines_length]; omega),
    cell_slice hi hj hlen]
  rfl

/-- Every table with this layout is well formed. -/
theorem Laid.wellFormed {x y w : ℕ} (hx : x < 2^31) (hy : y < 2^31) {title : Bytes}
    {cells : ℕ → ℕ → Bytes} {t : STable} (h : Laid x y w title cells t) : WellFormed t := by
  obtain ⟨rest,htext⟩ := h.text
  refine ⟨h.tableX ▸ hx,h.tableY ▸ hy,?_,?_⟩
  · intro i hi j hj
    rw [h.tableX] at hi
    rw [h.tableY] at hj
    have hlt := cellPlace_lt (w := w) hi hj
    refine ⟨_,h.cellAt hi hj,?_⟩
    rw [htext,h.colwidth,List.length_append,lines_length]
    omega
  · intro i hi j hj i' hi' j' hj' p p' hp hp' hne
    rw [h.tableX] at hi hi'
    rw [h.tableY] at hj hj'
    rw [h.cellAt hi hj] at hp
    rw [h.cellAt hi' hj'] at hp'
    cases hp
    cases hp'
    rw [h.colwidth]
    by_cases hbefore : j < j' ∨ j = j' ∧ i < i'
    · exact Or.inl (cellPlace_add_le hi hbefore)
    · exact Or.inr (cellPlace_add_le hi' (by omega))

/-- Tokens joined by one or more separators, and perhaps followed by some. -/
inductive Joined (separ : UInt8) : List CString → Bytes → Prop
  | last (v : CString) (n : ℕ) : Joined separ [v] (v.bytes ++ List.replicate n separ)
  | cons (v : CString) (n : ℕ) {vs : List CString} {bs : Bytes} : Joined separ vs bs →
      Joined separ (v :: vs) (v.bytes ++ (List.replicate (n + 1) separ ++ bs))

/-- Neither empty nor cut by the separator. -/
def Token (separ : UInt8) (v : CString) : Prop := v.bytes ≠ [] ∧ separ ∉ v.bytes

variable {separ : UInt8}

theorem dropWhile_separs (n : ℕ) (bs : Bytes) :
    (List.replicate n separ ++ bs).dropWhile (· = separ) = bs.dropWhile (· = separ) := by
  apply List.dropWhile_append_of_pos
  intro b hb
  simpa using List.eq_of_mem_replicate hb

theorem scan_token {v r : Bytes} (hv : separ ∉ v) (hr : ∀ b ∈ r.head?, b = separ) :
    (v ++ r).takeWhile (· ≠ separ) = v ∧ (v ++ r).dropWhile (· ≠ separ) = r := by
  have hall : ∀ b ∈ v, decide (b ≠ separ) = true := by
    intro b hb
    simpa using fun h : b = separ => hv (h ▸ hb)
  rw [List.takeWhile_append_of_pos hall,List.dropWhile_append_of_pos hall]
  cases r with
  | nil => simp
  | cons b r => simp [hr b rfl]

theorem skip_head {b : UInt8} {bs : Bytes} (hb : b ∈ bs.head?) (hne : b ≠ separ) (r : Bytes) :
    bs ++ r ≠ [] ∧ (bs ++ r).dropWhile (· = separ) = bs ++ r := by
  cases bs with
  | nil => cases hb
  | cons a bs =>
    obtain rfl : a = b := Option.some.inj hb
    simp [hne]

theorem Token.head {v : CString} (hv : Token separ v) : ∃ b ∈ v.bytes.head?, b ≠ separ := by
  obtain ⟨hne,hfree⟩ := hv
  cases hb : v.bytes with
  | nil => exact absurd hb hne
  | cons b bs => exact ⟨b,rfl,fun heq => hfree (by simp [hb,heq])⟩

theorem Joined.dropWhile {vs : List CString} {bs : Bytes} (h : Joined separ vs bs)
    (hvs : ∀ v ∈ vs, Token separ v) : bs ≠ [] ∧ bs.dropWhile (· = separ) = bs := by
  cases h with
  | last v n =>
    obtain ⟨b,hb,hne⟩ := (hvs v List.mem_cons_self).head
    exact skip_head hb hne _
  | cons v n h =>
    obtain ⟨b,hb,hne⟩ := (hvs v List.mem_cons_self).head
    exact skip_head hb hne _

/-- The first value ends at the first separator, and the next ones begin behind the last one. -/
theorem tokens_cons {v : CString} {r : Bytes} (hv : separ ∉ v.bytes) (hr : r ≠ [])
    (hskip : r.dropWhile (· = separ) = r) (m n : ℕ) :
    tokens separ (n + 1) (v.bytes ++ (List.replicate (m + 1) separ ++ r)) =
      v :: tokens separ n r := by
  obtain ⟨htake,hdrop⟩ := @scan_token separ v.bytes (List.replicate (m + 1) separ ++ r) hv
    (by simp [List.replicate_succ])
  rw [tokens,htake,hdrop,dropWhile_separs,hskip,CString.ofMem_self]
  simp only [if_neg hr]

theorem tokens_joined {vs : List CString} {bs : Bytes} (h : Joined separ vs bs)
    (hvs : ∀ v ∈ vs, Token separ v) (n : ℕ) : tokens separ n bs = vs.take n := by
  induction h generalizing n with
  | last v m =>
    cases n with
    | zero => rfl
    | succ n =>
      obtain ⟨htake,hdrop⟩ := @scan_token separ v.bytes (List.replicate m separ)
        (hvs v List.mem_cons_self).2 (by cases m <;> simp [List.replicate_succ])
      have hnone := @dropWhile_separs separ m []
      rw [List.append_nil,List.dropWhile_nil] at hnone
      rw [tokens,htake,hdrop,hnone,CString.ofMem_self,List.take_succ_cons,List.take_nil]
      rfl
  | @cons v m vs bs h ih =>
    cases n with
    | zero => rfl
    | succ n =>
      have hrest : ∀ u ∈ vs, Token separ u := fun u hu => hvs u (List.mem_cons_of_mem v hu)
      obtain ⟨hne,hnext⟩ := h.dropWhile hrest
      rw [tokens_cons (hvs v List.mem_cons_self).2 hne hnext,ih hrest n,List.take_succ_cons]

/-- The value with index `k` comes to the cell in column `i` of row `j`. -/
def IsCell (xy s : ℤ) (type : Bool) (k i j : ℕ) : Prop :=
  if type then xy = i ∧ s + k = j else s + k = i ∧ xy = j

theorem getElem?_place (xy s : ℤ) (type : Bool) (vs : List CString) (k : ℕ) :
    (place xy type s vs)[k]? = vs[k]?.map fun v => if type then ⟨xy,s + k,v⟩ else ⟨s + k,xy,v⟩ := by
  induction vs generalizing s k with
  | nil => simp [place]
  | cons v vs ih =>
    cases k with
    | zero => simp [place]
    | succ k =>
      have hnext : s + 1 + (k : ℤ) = s + (k + 1 : ℕ) := by
        push_cast
        ring
      rw [place,List.getElem?_cons_succ,List.getElem?_cons_succ,ih,hnext]

theorem IsCell.unique {xy s : ℤ} {type : Bool} {k k' i j : ℕ} (h : IsCell xy s type k i j)
    (h' : IsCell xy s type k' i j) : k = k' := by
  unfold IsCell at h h'
  cases type <;> simp at h h' <;> omega

theorem at_place {xy s : ℤ} {type : Bool} {vs : List CString} {k i j : ℕ} {a : Write} {b : Bytes}
    (h : (place xy type s vs)[k]? = some a) :
    a.at i j = some b ↔ IsCell xy s type k i j ∧ ∃ v, vs[k]? = some v ∧ v.bytes = b := by
  rw [getElem?_place] at h
  obtain ⟨v,hv,rfl⟩ := Option.map_eq_some_iff.mp h
  rw [hv,Write.at]
  cases type <;> simp [IsCell]

theorem last_place {xy s : ℤ} {type : Bool} {vs : List CString} {n k i j : ℕ} {v : CString}
    (hk : k < n) (hv : vs[k]? = some v) (hcell : IsCell xy s type k i j) :
    last (Write.at i j) ((place xy type s vs).take n) = some v.bytes := by
  have hget : (place xy type s vs)[k]? = some (if type then ⟨xy,s + k,v⟩ else ⟨s + k,xy,v⟩) := by
    rw [getElem?_place,hv]
    rfl
  have hmem := List.mem_of_getElem? ((List.getElem?_take_of_lt hk).trans hget)
  apply last_eq_some hmem ((at_place hget).mpr ⟨hcell,v,hv,rfl⟩)
  intro b hb d hd
  obtain ⟨k',hk'⟩ := List.mem_iff_getElem?.mp hb
  have hlt : k' < n := by
    by_contra hge
    rw [List.getElem?_take_eq_none (Nat.le_of_not_lt hge)] at hk'
    cases hk'
  rw [List.getElem?_take_of_lt hlt] at hk'
  obtain ⟨hcell',u,hu,hud⟩ := (at_place hk').mp hd
  rw [hcell.unique hcell',hu] at hv
  rw [← hud,Option.some.inj hv]

theorem last_place_none {xy s : ℤ} {type : Bool} {vs : List CString} {n i j : ℕ}
    (h : ∀ k < n, ¬ IsCell xy s type k i j) :
    last (Write.at i j) ((place xy type s vs).take n) = none := by
  apply last_eq_none
  intro b hb
  obtain ⟨k,hk⟩ := List.mem_iff_getElem?.mp hb
  have hlt : k < n := by
    by_contra hge
    rw [List.getElem?_take_eq_none (Nat.le_of_not_lt hge)] at hk
    cases hk
  rw [List.getElem?_take_of_lt hlt] at hk
  cases hat : b.at i j with
  | none => rfl
  | some d => exact absurd ((at_place hk).mp hat).1 (h k hlt)

theorem takeWhile_place_take {x y w : ℕ} {xy s : ℤ} {type : Bool} {vs : List CString} {n : ℕ}
    (hn : (if type then y else x : ℕ) ≤ s + n) :
    (place xy type s (vs.take n)).takeWhile (Write.Accepted x y w) =
      (place xy type s vs).takeWhile (Write.Accepted x y w) := by
  induction n generalizing s vs with
  | zero =>
    cases vs with
    | nil => rfl
    | cons v vs =>
      rw [List.take_zero,place,place,List.takeWhile_nil,List.takeWhile_cons_of_neg]
      cases type <;> simp [Write.Accepted] <;> simp at hn <;> omega
  | succ n ih =>
    cases vs with
    | nil => rfl
    | cons v vs =>
      have hnext := @ih (s + 1) vs (by push_cast at hn ⊢; omega)
      rw [List.take_succ_cons,place,place,List.takeWhile_cons,List.takeWhile_cons,hnext]

/-- After a call that returned `n`: the longest run of values that are accepted, from the first
one on, is in the cells of the line from place `s` on, and nothing else has changed. -/
structure Placed (t : STable) (xy s : ℤ) (type : Bool) (vs : List CString) (n : ℕ)
    (t' : STable) : Prop where
  longest : n = ((place xy type s vs).takeWhile
    (Write.Accepted t.tableX t.tableY t.colwidth)).length
  fields : t' = { t with text := t'.text }
  values : ∀ i < t.tableX, ∀ j < t.tableY, ∀ k < n, ∀ v, vs[k]? = some v →
    IsCell xy s type k i j → t'.cellText i j = some (padCell t.colwidth v.bytes)
  others : ∀ i < t.tableX, ∀ j < t.tableY, (∀ k < n, ¬ IsCell xy s type k i j) →
    t'.cellText i j = t.cellText i j
  frame : ∀ b, (∀ i < t.tableX, ∀ j < t.tableY, ∀ p, t.cellAt i j = some p →
    ¬ (p ≤ b ∧ b < p + t.colwidth)) → t'.text[b]? = t.text[b]?

theorem Filled.placed {t t' : STable} {xy s : ℤ} {type : Bool} {vs : List CString}
    (h : Filled t t' ((place xy type s vs).takeWhile
      (Write.Accepted t.tableX t.tableY t.colwidth))) :
    Placed t xy s type vs ((place xy type s vs).takeWhile
      (Write.Accepted t.tableX t.tableY t.colwidth)).length t' := by
  have htake := List.prefix_iff_eq_take.mp
    (List.takeWhile_prefix (l := place xy type s vs) (Write.Accepted t.tableX t.tableY t.colwidth))
  rw [htake] at h
  refine ⟨rfl,h.fields,?_,?_,h.frame⟩
  · intro i hi j hj k hk v hv hcell
    rw [h.cells i hi j hj,last_place hk hv hcell]
    rfl
  · intro i hi j hj hnone
    rw [h.cells i hi j hj,last_place_none hnone]
    rfl

/-- How often the loop runs at most. -/
def rounds (t : STable) (s : ℤ) (type : Bool) : ℕ :=
  ((if type then t.tableY else t.tableX : ℕ) - s).toNat

/-- The rounds end before an `int` overflows. -/
theorem rounds_lt {t : STable} (ht : WellFormed t) {s : ℤ} (hs : s < 2^31) (type : Bool) :
    s + rounds t s type < 2^31 := by
  have hlt : (if type then t.tableY else t.tableX) < 2^31 := by
    cases type
    · exact ht.tableX
    · exact ht.tableY
  unfold rounds
  omega

theorem valuesetxsEx_placed {t : STable} (ht : WellFormed t) {xy s : ℤ}
    (hxy : -2^31 ≤ xy ∧ xy < 2^31) (hs : 0 ≤ s ∧ s < 2^31) (hsep : separ ≠ 0) {vs : List CString}
    (hvs : ∀ v ∈ vs, Token separ v ∧ v.length ≤ MAX_COLWIDTH) {values : CString}
    (hvalues : Joined separ vs values.bytes) (type : Bool) :
    ∃ n t', sTableValuesetxsEx t xy s values separ type = some (n,t') ∧
      Placed t xy s type vs n t' := by
  let n := rounds t s type
  have htokens : memTokens separ n (values.bytes ++ [0]) = vs.take n := by
    rw [InMemory.memTokens_values hsep n values.nulFree,
      tokens_joined hvalues (fun v hv => (hvs v hv).1) n]
  have hends : Ends t.tableX t.tableY t.colwidth (fun as t' => Filled t t' as) separ [] 0
      (place xy type s (memTokens separ n (values.bytes ++ [0])))
      (InMemory.valuesLoop xy separ type n t s (values.bytes ++ [0]) 0) :=
    InMemory.valuesLoop_ends (filled_followsWrites ht) hxy type (by omega) (rounds_lt ht hs.2 type)
      (fun _ => by simp) (Filled.refl t)
  rw [htokens] at hends
  obtain ⟨t',hloop,hfilled⟩ := hends.of_short hsep fun a ha =>
    (hvs a.value (List.mem_of_mem_take (value_mem_of_mem_place ha))).2
  have hn : (if type then t.tableY else t.tableX : ℕ) ≤ s + (n : ℤ) :=
    Int.le_add_of_sub_left_le (Int.self_le_toNat _)
  rw [takeWhile_place_take hn,Nat.zero_add] at hloop
  rw [takeWhile_place_take hn] at hfilled
  refine ⟨_,t',?_,hfilled.placed⟩
  have hrefines : sTableValuesetxsEx t xy s values separ type =
      (InMemory.valuesLoop xy separ type n t s (values.bytes ++ [0]) 0).toOption :=
    InMemory.valuesLoop_values hsep xy type n t s values.nulFree [] 0
  rw [hrefines,hloop]
  rfl

/-- Joined tokens come to the cells of a row, or of a column. -/
theorem tokens_placed {t : STable} (ht : WellFormed t) {xy s : ℤ} (hxy : -2^31 ≤ xy ∧ xy < 2^31)
    (hs : 0 ≤ s ∧ s < 2^31) (hsep : separ ≠ 0) {vs : List CString}
    (hvs : ∀ v ∈ vs, Token separ v ∧ v.length ≤ MAX_COLWIDTH) {values : CString}
    (hvalues : Joined separ vs values.bytes) :
    (∃ n t', sTableValuesetxs t xy s values separ = some (n,t') ∧ Placed t xy s false vs n t') ∧
      ∃ n t', sTableValuesetys t xy s values separ = some (n,t') ∧ Placed t xy s true vs n t' :=
  ⟨valuesetxsEx_placed ht hxy hs hsep hvs hvalues false,
    valuesetxsEx_placed ht hxy hs hsep hvs hvalues true⟩

/-- Two tokens for the second row, and one that is too long for its cell. -/
theorem tokens_placed_small : ∃ t n t', sTableCreate0 (CString.lit "ab") 3 2 4 = .done t ∧
    sTableValuesetxs t 1 0 (CString.lit "x,,yy,too long,") 44 = some (n,t') ∧
    Placed t 1 0 false [CString.lit "x",CString.lit "yy",CString.lit "too long"] n t' := by
  obtain ⟨t,hcreate,hlaid⟩ := @create_laid 3 2 4 (by decide) (by decide) (CString.lit "ab")
    (by decide) (by decide)
  have hjoined : Joined 44 [CString.lit "x",CString.lit "yy",CString.lit "too long"]
      (CString.lit "x,,yy,too long,").bytes :=
    Joined.cons _ 1 (Joined.cons _ 0 (Joined.last _ 1))
  obtain ⟨⟨n,t',hset,hplaced⟩,-⟩ := tokens_placed (hlaid.wellFormed (by decide) (by decide))
    (by decide : (-2^31 : ℤ) ≤ 1 ∧ (1 : ℤ) < 2^31) (by decide : (0 : ℤ) ≤ 0 ∧ (0 : ℤ) < 2^31)
    (by decide) (by unfold Token; decide) hjoined
  exact ⟨t,n,t',hcreate,hset,hplaced⟩

/-- No store through `value` leaves `tmp_value`, and a call that returns has written the values
before the first one that is not accepted and nothing else. -/
def CopiesInBounds (t : STable) (xy s : ℤ) (mem : Bytes) (separ : UInt8) (type : Bool) : Prop :=
  InMemory.sTableValuesetxsEx t xy s mem separ type ≠ .error .store ∧
    ∀ n t', InMemory.sTableValuesetxsEx t xy s mem separ type = .ok (n,t') →
      Filled t t' ((place xy type s (memTokens separ (rounds t s type) mem)).takeWhile
        (Write.Accepted t.tableX t.tableY t.colwidth))

/-- The copies stay in bounds exactly when no value that the call comes to is longer than
`MAX_COLWIDTH`, whatever the width of the columns. -/
theorem copiesInBounds_iff {t : STable} (ht : WellFormed t) {xy s : ℤ}
    (hxy : -2^31 ≤ xy ∧ xy < 2^31) (hs : -2^31 ≤ s ∧ s < 2^31) (values : CString) (behind : Bytes)
    (separ : UInt8) (type : Bool) :
    CopiesInBounds t xy s (values.bytes ++ 0 :: behind) separ type ↔
      ∀ a ∈ reached t.tableX t.tableY t.colwidth
        (place xy type s (memTokens separ (rounds t s type) (values.bytes ++ 0 :: behind))),
        a.value.length ≤ MAX_COLWIDTH := by
  have hends : Ends t.tableX t.tableY t.colwidth (fun as t' => Filled t t' as) separ [] 0
      (place xy type s (memTokens separ (rounds t s type) (values.bytes ++ 0 :: behind)))
      (InMemory.sTableValuesetxsEx t xy s (values.bytes ++ 0 :: behind) separ type) :=
    InMemory.valuesLoop_ends (filled_followsWrites ht) hxy type hs.1 (rounds_lt ht hs.2 type)
      (fun _ => by simp) (Filled.refl t)
  unfold CopiesInBounds
  unfold Ends at hends
  split at hends
  · rename_i hshort
    refine iff_of_true ?_ hshort
    rcases hends with ⟨-,hread⟩ | ⟨t',hok,hfilled⟩
    · rw [hread]
      exact ⟨by simp,fun _ _ h => by cases h⟩
    · rw [hok]
      refine ⟨by simp,fun n t₁ h => ?_⟩
      cases h
      exact hfilled
  · rename_i hlong
    exact iff_of_false (fun h => h.1 hends) hlong

def wideTable : STable :=
  { emptyTable 1 1 40 0 43 with data := some 0, table := [some 0], text := List.replicate 40 32 }

theorem wideTable_wellFormed : WellFormed wideTable where
  tableX := by decide
  tableY := by decide
  cell i hi j hj := by
    obtain rfl : i = 0 := Nat.lt_one_iff.mp hi
    obtain rfl : j = 0 := Nat.lt_one_iff.mp hj
    exact ⟨0,rfl,by decide⟩
  apart i hi j hj i' hi' j' hj' p p' _ _ hne := by
    obtain rfl : i = 0 := Nat.lt_one_iff.mp hi
    obtain rfl : j = 0 := Nat.lt_one_iff.mp hj
    obtain rfl : i' = 0 := Nat.lt_one_iff.mp hi'
    obtain rfl : j' = 0 := Nat.lt_one_iff.mp hj'
    exact absurd ⟨rfl,rfl⟩ hne

theorem copiesInBounds_small :
    CopiesInBounds wideTable 0 0 ((CString.lit "x").bytes ++ 0 :: []) 44 false :=
  (copiesInBounds_iff wideTable_wellFormed (by decide) (by decide) (CString.lit "x") [] 44
    false).mpr (by decide)

/-- A value of 33 bytes, which the cell would hold: its NUL is stored behind `tmp_value`. -/
theorem copies_not_always_in_bounds : ¬ ∀ (t : STable) (_ : WellFormed t) (values : CString)
    (separ : UInt8) (s : ℤ), CopiesInBounds t 0 s (values.bytes ++ [0]) separ false := by
  intro h
  apply (h wideTable wideTable_wellFormed
    (CString.lit "a value of thirty-three bytes. No") 44 0).1
  rfl

end StringTable
end WddProc
