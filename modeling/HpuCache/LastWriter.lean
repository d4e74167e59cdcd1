import Mathlib.Order.Lattice
import Mathlib.Data.List.Basic

/-! Logs of stamped writes, latest first. In a log that never runs a write after a newer
one of its key, what was run last for a key is the newest that the log knows. -/
namespace HpuCache.LastWriter

variable {α κ τ : Type} [DecidableEq κ] [LinearOrder τ] {key : α → κ} {stamp : α → τ}

def Ascending (key : α → κ) (stamp : α → τ) (ran : List α) : Prop :=
  ran.Pairwise (fun later earlier => key later = key earlier → stamp earlier < stamp later)

def lastOf (key : α → κ) (ran : List α) (k : κ) : Option α := ran.find? (fun x => key x = k)

theorem lastOfSame (x : α) (ran : List α) : lastOf key (x :: ran) (key x) = some x := by simp [lastOf]

theorem lastOfOther {x : α} {k : κ} (ran : List α) (other : key x ≠ k) :
    lastOf key (x :: ran) k = lastOf key ran k := by simp [lastOf,other]

theorem lastOfMem {ran : List α} {k : κ} {x : α} (last : lastOf key ran k = some x) : x ∈ ran ∧ key x = k :=
  ⟨List.mem_of_find?_eq_some last,by simpa using List.find?_some last⟩

theorem lastOfNone {ran : List α} {k : κ} : lastOf key ran k = none ↔ ∀ x ∈ ran, key x ≠ k := by simp [lastOf]

theorem lastNewest {ran : List α} {k : κ} {x : α} (ascending : Ascending key stamp ran)
    (last : lastOf key ran k = some x) : ∀ y ∈ ran, key y = k → stamp y ≤ stamp x := by
  induction ran with
  | nil => simp
  | cons z rest ih =>
    obtain ⟨head,tail⟩ := List.pairwise_cons.mp ascending
    intro y member own
    by_cases here : key z = k
    · subst here
      rw [lastOfSame] at last
      cases Option.some.inj last
      rcases List.mem_cons.mp member with rfl | earlier
      · exact le_refl _
      · exact le_of_lt (head y earlier own.symm)
    · rw [lastOfOther rest here] at last
      rcases List.mem_cons.mp member with rfl | earlier
      · exact absurd own here
      · exact ih tail last y earlier own

/-- A write that was run, and than which nothing run for its key is newer, was run last. -/
theorem newestLast {ran : List α} {x : α} (ascending : Ascending key stamp ran) (member : x ∈ ran)
    (newest : ∀ y ∈ ran, key y = key x → stamp y ≤ stamp x)
    (apart : ∀ y ∈ ran, key y = key x → stamp y = stamp x → y = x) : lastOf key ran (key x) = some x := by
  cases last : lastOf key ran (key x) with
  | none => exact absurd rfl (lastOfNone.mp last x member)
  | some y =>
    obtain ⟨inside,own⟩ := lastOfMem last
    have above := lastNewest ascending last x member rfl
    rw [apart y inside own (le_antisymm (newest y inside own) above)]

end HpuCache.LastWriter
