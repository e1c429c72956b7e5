import WddProc.CString

/-!
# Sequences of stores

Stores into a block, each at an offset. They all succeed exactly when each of them
ends inside the block, which none of them makes longer.
-/

namespace WddProc

theorem poke_length {m m' bs : Bytes} {pos : ℕ} (h : poke m pos bs = some m') :
    m'.length = m.length := by
  unfold poke at h
  split at h
  · cases h
    simp
    omega
  · cases h

def stores (m : Bytes) (ws : List (ℕ × Bytes)) : Option Bytes :=
  ws.foldlM (fun m p => poke m p.1 p.2) m

@[simp] theorem stores_nil (m : Bytes) : stores m [] = some m := rfl

@[simp] theorem stores_cons (m : Bytes) (p : ℕ × Bytes) (ws : List (ℕ × Bytes)) :
    stores m (p :: ws) = (poke m p.1 p.2).bind fun m => stores m ws := rfl

theorem stores_append (m : Bytes) (ws vs : List (ℕ × Bytes)) :
    stores m (ws ++ vs) = (stores m ws).bind fun m => stores m vs :=
  List.foldlM_append

theorem stores_flatMap {ι : Type} (m : Bytes) (ks : List ι) (f : ι → List (ℕ × Bytes)) :
    stores m (ks.flatMap f) = ks.foldlM (fun m k => stores m (f k)) m := by
  induction ks generalizing m with
  | nil => rfl
  | cons k ks ih =>
    rw [List.flatMap_cons,stores_append,List.foldlM_cons]
    exact congrArg (Option.bind (stores m (f k))) (funext ih)

theorem stores_isSome_iff (m : Bytes) (ws : List (ℕ × Bytes)) :
    (stores m ws).isSome ↔ ∀ p ∈ ws, p.1 + p.2.length ≤ m.length := by
  induction ws generalizing m with
  | nil => simp
  | cons p ws ih =>
    rw [stores_cons,List.forall_mem_cons,← poke_isSome_iff]
    cases h : poke m p.1 p.2 with
    | none => simp
    | some m' =>
      rw [Option.bind_some,ih,poke_length h]
      simp

end WddProc
