import Mathlib.Data.List.GetD
import Mathlib.Data.List.Perm.Basic

/-! Tables of chains, where every element lies in the chain of its slot. What a table holds is
known up to order, and the chain of a slot is all there is to know of its elements. Nothing here
names a program. -/
namespace HpuCache.ChainedTable

variable {α : Type}

def chain (t : List (List α)) (i : Nat) : List α := t.getD i []

/-- Every element is in the chain of its slot. -/
def Placed (slot : α → Nat) (t : List (List α)) : Prop := ∀ i, ∀ x ∈ chain t i, slot x = i

theorem chainNone {t : List (List α)} {i : Nat} (outside : t.length ≤ i) : chain t i = [] := by
  rw [chain,List.getD_eq_getElem?_getD,List.getElem?_eq_none outside,Option.getD_none]

theorem chainInside {t : List (List α)} {i : Nat} (full : chain t i ≠ []) : i < t.length := by
  by_contra outside
  exact full (chainNone (Nat.le_of_not_lt outside))

theorem chainSet (t : List (List α)) {i : Nat} (c : List α) (j : Nat) (inside : i < t.length) :
    chain (t.set i c) j = if i = j then c else chain t j := by
  rw [chain,chain,List.getD_eq_getElem?_getD,List.getElem?_set,List.getD_eq_getElem?_getD]
  split <;> rfl

/-- An empty chain stays empty where another is changed. -/
theorem chainSetEmpty {t : List (List α)} {i : Nat} {c : List α} (keeps : chain t i = [] → c = []) (j : Nat)
    (empty : chain t j = []) : chain (t.set i c) j = [] := by
  by_cases inside : i < t.length
  · rw [chainSet t c j inside]
    split
    · rename_i same
      exact keeps (by rwa [same])
    · exact empty
  · rwa [List.set_eq_of_length_le (Nat.le_of_not_lt inside)]

theorem chainEmpty (n i : Nat) : chain (List.replicate n ([] : List α)) i = [] := by
  rw [chain,List.getD_eq_getElem?_getD,List.getElem?_replicate]
  split <;> rfl

theorem flattenSet {t : List (List α)} {i : Nat} (c : List α) (inside : i < t.length) :
    (t.set i c).flatten.Perm (c ++ (t.set i []).flatten) := by
  induction t generalizing i with
  | nil => exact absurd inside (Nat.not_lt_zero _)
  | cons first rest ih =>
    cases i with
    | zero => exact .refl _
    | succ i =>
      simp only [List.set_cons_succ,List.flatten_cons]
      have moved := (ih (Nat.lt_of_succ_lt_succ inside)).append_left first
      rw [← List.append_assoc] at moved ⊢
      exact moved.trans (by
        rw [List.append_assoc,List.append_assoc,← List.append_assoc first,← List.append_assoc c]
        exact List.perm_append_comm.append_right _)

theorem flattenChain {t : List (List α)} {i : Nat} (inside : i < t.length) :
    t.flatten.Perm (chain t i ++ (t.set i []).flatten) := by
  have same : t.set i (chain t i) = t := by
    rw [chain,List.getD_eq_getElem _ _ inside,List.set_getElem_self]
  have parts := flattenSet (chain t i) inside
  rwa [same] at parts

theorem flattenEmpty (n : Nat) : (List.replicate n ([] : List α)).flatten = [] := by
  rw [List.flatten_replicate_nil]

theorem chainMem {t : List (List α)} {i : Nat} {x : α} (mem : x ∈ chain t i) : x ∈ t.flatten :=
  (flattenChain (chainInside (List.ne_nil_of_mem mem))).mem_iff.mpr (List.mem_append_left _ mem)

theorem placedMem {slot : α → Nat} {t : List (List α)} (placed : Placed slot t) (x : α) :
    x ∈ t.flatten ↔ x ∈ chain t (slot x) := by
  refine ⟨fun mem => ?_,chainMem⟩
  obtain ⟨c,inside,mem⟩ := List.mem_flatten.mp mem
  obtain ⟨i,bound,rfl⟩ := List.getElem_of_mem inside
  have here : x ∈ chain t i := by rwa [chain,List.getD_eq_getElem _ _ bound]
  rwa [placed i x here]

theorem placedSet {slot : α → Nat} {t : List (List α)} (placed : Placed slot t) {i : Nat} {c : List α}
    (inside : i < t.length) (fits : ∀ x ∈ c, slot x = i) : Placed slot (t.set i c) := by
  intro j x mem
  rw [chainSet t c j inside] at mem
  split at mem
  · rename_i same
    exact (fits x mem).trans same
  · exact placed j x mem

theorem placedEmpty (slot : α → Nat) (n : Nat) : Placed slot (List.replicate n []) := by
  intro i x mem
  rw [chainEmpty] at mem
  contradiction

end HpuCache.ChainedTable
