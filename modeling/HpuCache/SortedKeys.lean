import Mathlib.Data.List.Basic
import Mathlib.Data.List.Nodup

/-! Sets kept as lists in strictly increasing order. Insertion finds its place in one
pass and adds no second copy, so the order is part of the type. -/
namespace HpuCache.SortedKeys

variable {α : Type} [LT α]

structure Sorted (α : Type) [LT α] where
  keys : List α
  increasing : keys.Pairwise (· < ·)

def Sorted.empty : Sorted α := ⟨[],.nil⟩

theorem Sorted.distinct [Std.Irrefl (· < · : α → α → Prop)] (s : Sorted α) : s.keys.Nodup :=
  s.increasing.imp (by
    rintro a b less rfl
    exact Std.Irrefl.irrefl a less)

variable [DecidableEq α]

def Sorted.remove (s : Sorted α) (k : α) : Sorted α :=
  ⟨s.keys.filter (· ≠ k),s.increasing.sublist List.filter_sublist⟩

theorem Sorted.memRemove {s : Sorted α} {k e : α} : e ∈ (s.remove k).keys ↔ e ∈ s.keys ∧ e ≠ k := by
  simp [remove]

variable [DecidableLT α]

def insertInto (k : α) : List α → List α
  | [] => [k]
  | e :: rest => if k < e then k :: e :: rest else if k = e then e :: rest else e :: insertInto k rest

theorem memInsertInto {k e : α} {keys : List α} : e ∈ insertInto k keys ↔ e = k ∨ e ∈ keys := by
  induction keys with
  | nil => simp [insertInto]
  | cons f rest ih =>
    rw [insertInto]
    split
    · exact List.mem_cons
    · split
      · next same => simp [same]
      · simp only [List.mem_cons,ih]
        exact or_left_comm

variable [Std.Trichotomous (· < · : α → α → Prop)] [Trans (· < · : α → α → Prop) (· < ·) (· < ·)]

theorem insertIncreasing {k : α} {keys : List α} (sorted : keys.Pairwise (· < ·)) :
    (insertInto k keys).Pairwise (· < ·) := by
  induction keys with
  | nil => exact List.pairwise_singleton _ _
  | cons e rest ih =>
    obtain ⟨least,later⟩ := List.pairwise_cons.mp sorted
    rw [insertInto]
    split
    · next less =>
      refine List.pairwise_cons.mpr ⟨?_,sorted⟩
      intro f member
      rcases List.mem_cons.mp member with rfl | inside
      · exact less
      · exact Trans.trans less (least f inside)
    · next notLess =>
      split
      · exact sorted
      · next other =>
        refine List.pairwise_cons.mpr ⟨?_,ih later⟩
        intro f member
        rcases memInsertInto.mp member with rfl | inside
        · exact Decidable.by_contra fun notAbove =>
            other (@Std.Trichotomous.trichotomous α (· < ·) _ _ _ notLess notAbove)
        · exact least f inside

def Sorted.insert (s : Sorted α) (k : α) : Sorted α := ⟨insertInto k s.keys,insertIncreasing s.increasing⟩

theorem Sorted.memInsert {s : Sorted α} {k e : α} : e ∈ (s.insert k).keys ↔ e = k ∨ e ∈ s.keys := memInsertInto

end HpuCache.SortedKeys
