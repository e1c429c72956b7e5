import Mathlib.Tactic

/-!
# A mailbox with one slot

A new message replaces one that still waits. The mailbox carries the proof that
every message it has received is waiting, taken or replaced, and only one of these.
-/

namespace WddProc

/-- `received` is in order of arrival and gives every message its number; a replaced
message goes with the number of the one that replaced it. -/
structure Mailbox (α : Type) where
  received : List α
  slot : Option (ℕ × α)
  taken : List (ℕ × α)
  replaced : List (ℕ × ℕ)
  accounts : (slot.toList.map Prod.fst ++ taken.map Prod.fst ++ replaced.map Prod.fst).Perm
    (List.range received.length)
  texts : ∀ x ∈ slot.toList ++ taken, received[x.1]? = some x.2
  later : ∀ r ∈ replaced, r.1 < r.2 ∧ r.2 < received.length

namespace Mailbox

variable {α : Type}

def empty : Mailbox α where
  received := []
  slot := none
  taken := []
  replaced := []
  accounts := by simp
  texts := by simp
  later := by simp

theorem slot_lt (m : Mailbox α) {x : ℕ × α} (hx : x ∈ m.slot.toList) : x.1 < m.received.length := by
  have h := m.texts x (by simp [hx])
  exact (List.getElem?_eq_some_iff.mp h).1

def put (m : Mailbox α) (a : α) : Mailbox α where
  received := m.received ++ [a]
  slot := some (m.received.length,a)
  taken := m.taken
  replaced := m.slot.toList.map (fun x => (x.1,m.received.length)) ++ m.replaced
  accounts := by
    have h : (m.slot.toList.map Prod.fst ++ m.taken.map Prod.fst ++ m.replaced.map Prod.fst).Perm
        (m.taken.map Prod.fst ++ (m.slot.toList.map Prod.fst ++ m.replaced.map Prod.fst)) := by
      rw [← List.append_assoc]
      exact List.perm_append_comm.append_right _
    have hfst : (m.slot.toList.map fun x => (x.1,m.received.length)).map Prod.fst =
        m.slot.toList.map Prod.fst := by
      rw [List.map_map]
      rfl
    simp only [Option.toList_some,List.map_cons,List.map_nil,List.map_append,hfst,List.length_append,
      List.length_singleton,List.range_succ,List.append_assoc]
    exact ((h.symm.trans m.accounts).append_left _).trans List.perm_append_comm
  texts := by
    intro x hx
    rcases List.mem_append.mp hx with hx | hx
    · obtain rfl : x = (m.received.length,a) := by simpa using hx
      simp
    · have h := m.texts x (by simp [hx])
      rw [List.getElem?_append_left (List.getElem?_eq_some_iff.mp h).1,h]
  later := by
    intro r hr
    rw [List.length_append,List.length_singleton]
    rcases List.mem_append.mp hr with hr | hr
    · obtain ⟨x,hx,rfl⟩ := List.mem_map.mp hr
      exact ⟨m.slot_lt hx,Nat.lt_succ_self _⟩
    · exact ⟨(m.later r hr).1,Nat.lt_succ_of_lt (m.later r hr).2⟩

def take (m : Mailbox α) : Mailbox α where
  received := m.received
  slot := none
  taken := m.slot.toList ++ m.taken
  replaced := m.replaced
  accounts := by simpa using m.accounts
  texts := by simpa using m.texts
  later := m.later

@[simp] theorem take_slot (m : Mailbox α) : m.take.slot = none := rfl
@[simp] theorem take_taken (m : Mailbox α) : m.take.taken = m.slot.toList ++ m.taken := rfl

end Mailbox
end WddProc
