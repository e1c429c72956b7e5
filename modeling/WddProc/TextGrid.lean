import WddProc.CString

/-!
# Lines of text in a block

A picture of `n` lines of `L` bytes is a function of line and column. Writing
inside one line is an update of the picture and leaves what follows it.
-/

namespace WddProc
namespace TextGrid

/-- What a picture has at a line and a column. -/
abbrev Picture := ℕ → ℕ → UInt8

def row (L : ℕ) (f : ℕ → UInt8) : Bytes := (List.range L).map f

def lines (L n : ℕ) (f : Picture) : Bytes := (List.range n).flatMap fun k => row L (f k)

/-- A picture with bytes written into line `k` from column `a` on. -/
def Picture.write (f : Picture) (k a : ℕ) (bs : Bytes) : Picture := fun k' c =>
  if k' = k ∧ a ≤ c ∧ c < a + bs.length then bs.getD (c - a) 0 else f k' c

theorem Picture.write_replicate (f : Picture) (k a n : ℕ) (b : UInt8) (k' c : ℕ) :
    f.write k a (List.replicate n b) k' c = if k' = k ∧ a ≤ c ∧ c < a + n then b else f k' c := by
  unfold Picture.write
  rw [List.length_replicate]
  by_cases h : k' = k ∧ a ≤ c ∧ c < a + n
  · rw [if_pos h,if_pos h,List.getD_eq_getElem?_getD,List.getElem?_replicate_of_lt (by omega),
      Option.getD_some]
  · rw [if_neg h,if_neg h]

theorem Picture.write_singleton (f : Picture) (k a : ℕ) (b : UInt8) (k' c : ℕ) :
    f.write k a [b] k' c = if k' = k ∧ c = a then b else f k' c := by
  rw [← List.replicate_one,Picture.write_replicate]
  have hiff : (k' = k ∧ a ≤ c ∧ c < a + 1) ↔ k' = k ∧ c = a := by omega
  simp only [hiff]

@[simp] theorem row_length (L : ℕ) (f : ℕ → UInt8) : (row L f).length = L := by simp [row]

theorem lines_succ (L n : ℕ) (f : Picture) : lines L (n + 1) f = lines L n f ++ row L (f n) := by
  simp [lines,List.range_succ]

@[simp] theorem lines_length (L n : ℕ) (f : Picture) : (lines L n f).length = n * L := by
  induction n with
  | zero => simp [lines]
  | succ n ih => rw [lines_succ,List.length_append,ih,row_length,Nat.succ_mul]

theorem lines_congr {L n : ℕ} {f g : Picture} (h : ∀ k < n, ∀ c < L, f k c = g k c) :
    lines L n f = lines L n g := by
  apply List.flatMap_congr
  intro k hk
  apply List.map_congr_left
  intro c hc
  exact h k (List.mem_range.mp hk) c (List.mem_range.mp hc)

theorem place_lt {L n k c : ℕ} (hk : k < n) (hc : c < L) : k * L + c < n * L :=
  calc k * L + c < k * L + L := by omega
    _ = (k + 1) * L := (Nat.succ_mul k L).symm
    _ ≤ n * L := Nat.mul_le_mul_right L hk

theorem place_mem_iff {L k k' a c s : ℕ} (hs : a + s ≤ L) (hc : c < L) :
    (k * L + a ≤ k' * L + c ∧ k' * L + c < k * L + a + s) ↔ k' = k ∧ a ≤ c ∧ c < a + s := by
  rcases Nat.lt_trichotomy k' k with hlt | rfl | hlt
  · have hle : (k' + 1) * L ≤ k * L := Nat.mul_le_mul_right L hlt
    rw [Nat.succ_mul] at hle
    constructor
    · intro h
      omega
    · intro h
      omega
  · constructor
    · intro h
      exact ⟨rfl,by omega,by omega⟩
    · intro h
      omega
  · have hle : (k + 1) * L ≤ k' * L := Nat.mul_le_mul_right L hlt
    rw [Nat.succ_mul] at hle
    constructor
    · intro h
      omega
    · intro h
      omega

theorem getElem?_lines {L n k c : ℕ} (f : Picture) (hk : k < n) (hc : c < L) :
    (lines L n f)[k * L + c]? = some (f k c) := by
  induction n with
  | zero => omega
  | succ n ih =>
    rw [lines_succ]
    by_cases hkn : k < n
    · rw [List.getElem?_append_left (by rw [lines_length]; exact place_lt hkn hc)]
      exact ih hkn
    · obtain rfl : k = n := by omega
      rw [List.getElem?_append_right (by rw [lines_length]; omega),lines_length,
        Nat.add_sub_cancel_left]
      simp [row,hc]

theorem getElem?_poke {m m' bs : Bytes} {pos : ℕ} (h : poke m pos bs = some m') (i : ℕ) :
    m'[i]? = if pos ≤ i ∧ i < pos + bs.length then bs[i - pos]? else m[i]? := by
  unfold poke at h
  split at h
  · rename_i hfit
    cases h
    have htake : (m.take pos).length = pos := List.length_take_of_le (by omega)
    rw [List.append_assoc]
    rcases Nat.lt_or_ge i pos with hlt | hge
    · have hno : ¬ (pos ≤ i ∧ i < pos + bs.length) := by omega
      rw [if_neg hno,List.getElem?_append_left (by omega),List.getElem?_take_of_lt hlt]
    · rw [List.getElem?_append_right (by omega),htake]
      by_cases hin : i < pos + bs.length
      · rw [if_pos ⟨hge,hin⟩,List.getElem?_append_left (by omega)]
      · have hno : ¬ (pos ≤ i ∧ i < pos + bs.length) := by omega
        rw [if_neg hno,List.getElem?_append_right (by omega),List.getElem?_drop]
        congr 1
        omega
  · cases h

/-- Writing inside a line updates the picture and nothing behind it. -/
theorem poke_lines {L n k a : ℕ} {bs : Bytes} (f : Picture) (rest : Bytes) (hk : k < n)
    (ha : a + bs.length ≤ L) :
    poke (lines L n f ++ rest) (k * L + a) bs = some (lines L n (f.write k a bs) ++ rest) := by
  have hle : (k + 1) * L ≤ n * L := Nat.mul_le_mul_right L hk
  rw [Nat.succ_mul] at hle
  have hsome : (poke (lines L n f ++ rest) (k * L + a) bs).isSome = true := by
    rw [poke_isSome_iff,List.length_append,lines_length]
    omega
  obtain ⟨m',hm⟩ := Option.isSome_iff_exists.mp hsome
  rw [hm,Option.some.injEq]
  apply List.ext_getElem?
  intro i
  rw [getElem?_poke hm]
  rcases Nat.lt_or_ge i (n * L) with hi | hi
  · have hL : 0 < L := by
      by_contra h0
      rw [Nat.eq_zero_of_not_pos h0,Nat.mul_zero] at hi
      omega
    obtain ⟨k',c,hc,rfl⟩ : ∃ k' c, c < L ∧ i = k' * L + c :=
      ⟨i / L,i % L,Nat.mod_lt i hL,(Nat.div_add_mod' i L).symm⟩
    have hk' : k' < n := by
      by_contra hge
      have hge' : n * L ≤ k' * L := Nat.mul_le_mul_right L (by omega)
      omega
    rw [List.getElem?_append_left (by rw [lines_length]; exact hi),
      List.getElem?_append_left (by rw [lines_length]; exact hi),getElem?_lines _ hk' hc,
      getElem?_lines _ hk' hc]
    by_cases hmem : k' = k ∧ a ≤ c ∧ c < a + bs.length
    · rw [if_pos ((place_mem_iff ha hc).mpr hmem),Picture.write,if_pos hmem]
      obtain ⟨rfl,hac,hcb⟩ := hmem
      have hsub : k' * L + c - (k' * L + a) = c - a := by omega
      rw [hsub,List.getD_eq_getElem?_getD,List.getElem?_eq_getElem (show c - a < bs.length by omega),
        Option.getD_some]
    · rw [if_neg fun h => hmem ((place_mem_iff ha hc).mp h),Picture.write,if_neg hmem]
  · have hno : ¬ (k * L + a ≤ i ∧ i < k * L + a + bs.length) := by omega
    rw [if_neg hno,List.getElem?_append_right (by rw [lines_length]; exact hi),
      List.getElem?_append_right (by rw [lines_length]; exact hi),lines_length,lines_length]

theorem poke_line {L n k : ℕ} {f : Picture} (a : ℕ) (bs rest : Bytes) (g : ℕ → UInt8) (hk : k < n)
    (ha : a + bs.length ≤ L) (hg : ∀ c < L, f.write k a bs k c = g c) :
    poke (lines L n f ++ rest) (k * L + a) bs = some (lines L n (Function.update f k g) ++ rest) := by
  rw [poke_lines f rest hk ha]
  refine congrArg (fun m => some (m ++ rest)) (lines_congr fun k' _ c hc => ?_)
  by_cases hkk : k' = k
  · subst hkk
    rw [Function.update_self]
    exact hg c hc
  · rw [Function.update_of_ne hkk,Picture.write,if_neg fun h => hkk h.1]

theorem foldlM_range {α : Type} {f : α → ℕ → Option α} {P : ℕ → α → Prop} {n : ℕ}
    (hstep : ∀ j < n, ∀ a, P j a → ∃ a', f a j = some a' ∧ P (j + 1) a') {a : α} (h : P 0 a) :
    ∃ a', (List.range n).foldlM f a = some a' ∧ P n a' := by
  induction n with
  | zero => exact ⟨a,rfl,h⟩
  | succ n ih =>
    obtain ⟨b,hb,hPb⟩ := ih fun j hj => hstep j (Nat.lt_succ_of_lt hj)
    obtain ⟨c,hc,hPc⟩ := hstep n (Nat.lt_succ_self n) b hPb
    refine ⟨c,?_,hPc⟩
    rw [List.range_succ,List.foldlM_append,hb,Option.bind_eq_bind,Option.bind_some]
    simp [hc]

/-- A loop that rewrites one line after the other. -/
theorem foldlM_lines {L n : ℕ} {step : Bytes → ℕ → Option Bytes}
    (line : ℕ → (ℕ → UInt8) → ℕ → UInt8) {rest : Bytes} (hstep : ∀ f : Picture, ∀ k < n, step (lines L n f ++ rest) k =
      some (lines L n (Function.update f k (line k (f k))) ++ rest)) (f : Picture) :
    (List.range n).foldlM step (lines L n f ++ rest) =
      some (lines L n (fun k => line k (f k)) ++ rest) := by
  let reached (j : ℕ) : Bytes := lines L n (fun k => if k < j then line k (f k) else f k) ++ rest
  have hrun : ∃ m, (List.range n).foldlM step (lines L n f ++ rest) = some m ∧ m = reached n := by
    refine foldlM_range (P := fun j m => m = reached j) (fun j hj m hm => ?_) (by simp [reached])
    refine ⟨_,by rw [hm,hstep _ j hj],?_⟩
    refine congrArg (· ++ rest) (congrArg (lines L n) ?_)
    funext k
    by_cases hkj : k = j
    · subst hkj
      simp
    · have hiff : k < j + 1 ↔ k < j := by omega
      simp [hkj,hiff]
  obtain ⟨m,hm,rfl⟩ := hrun
  have hall : lines L n (fun k => if k < n then line k (f k) else f k) =
      lines L n (fun k => line k (f k)) := by
    apply lines_congr
    intro k hk c _
    rw [if_pos hk]
  rw [hm,← hall]

theorem lines_zero (L n : ℕ) : lines L n (fun _ _ => 0) = List.replicate (n * L) 0 := by
  induction n with
  | zero => simp [lines]
  | succ n ih =>
    have hrow : row L (fun _ => 0) = List.replicate L 0 := by simp [row]
    rw [lines_succ,ih,hrow,List.replicate_append_replicate,Nat.succ_mul]

end TextGrid
end WddProc
