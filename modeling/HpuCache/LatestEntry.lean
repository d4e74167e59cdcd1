import Mathlib.Data.List.Induction
import HpuCache.KeyedDict

/-! The last entry of each key in a sequence, and the dictionaries that hold just
these: replacing entry by entry keeps the dictionary in step with the sequence. -/
namespace HpuCache.LatestEntry
open KeyedDict

variable {κ α : Type} {key : α → κ}

/-- `x` stands in the sequence and no later entry has its key. -/
def Latest (key : α → κ) (xs : List α) (x : α) : Prop :=
  ∃ front back, xs = front ++ x :: back ∧ ∀ y ∈ back, key y ≠ key x

theorem latestNil (x : α) : ¬ Latest key [] x := by
  rintro ⟨front,back,shape,_⟩
  simp at shape

theorem latestAppend {xs : List α} {x y : α} :
    Latest key (xs ++ [y]) x ↔ x = y ∨ (Latest key xs x ∧ key x ≠ key y) := by
  constructor
  · rintro ⟨front,back,shape,apart⟩
    rcases List.eq_nil_or_concat back with rfl | ⟨middle,last,rfl⟩
    · obtain ⟨_,same⟩ := List.append_inj' shape rfl
      exact .inl (List.cons.inj same).1.symm
    · have split : xs ++ [y] = (front ++ x :: middle) ++ [last] := by simpa using shape
      obtain ⟨rest,same⟩ := List.append_inj' split rfl
      cases (List.cons.inj same).1
      exact .inr ⟨⟨front,middle,rest,fun z member => apart z (by simp [member])⟩,
        (apart y (by simp)).symm⟩
  · rintro (rfl | ⟨⟨front,back,rfl,apart⟩,other⟩)
    · exact ⟨xs,[],rfl,by simp⟩
    · refine ⟨front,back ++ [y],by simp,?_⟩
      intro z member
      rcases List.mem_append.mp member with inside | last
      · exact apart z inside
      · rw [List.mem_singleton.mp last]
        exact other.symm

theorem latestMem {xs : List α} {x : α} (latest : Latest key xs x) : x ∈ xs := by
  obtain ⟨front,back,rfl,_⟩ := latest
  simp

theorem latestExists [DecidableEq κ] {xs : List α} {x : α} (member : x ∈ xs) :
    ∃ y, Latest key xs y ∧ key y = key x := by
  induction xs using List.reverseRecOn with
  | nil => contradiction
  | append_singleton xs y ih =>
    by_cases same : key x = key y
    · exact ⟨y,latestAppend.mpr (.inl rfl),same.symm⟩
    · have inside : x ∈ xs := by
        rcases List.mem_append.mp member with inside | last
        · exact inside
        · exact absurd (congrArg key (List.mem_singleton.mp last)) same
      obtain ⟨z,latest,own⟩ := ih inside
      exact ⟨z,latestAppend.mpr (.inr ⟨latest,own ▸ same⟩),own⟩

/-- The dictionary holds the last entry of each key of the sequence. -/
def Holds (d : Dict key) (xs : List α) : Prop := ∀ x, x ∈ d.entries ↔ Latest key xs x

theorem holdsEmpty : Holds (.empty : Dict key) [] := fun x => by simp [Dict.empty,latestNil]

theorem holdsReplace [DecidableEq κ] {d : Dict key} {xs : List α} (held : Holds d xs) (x : α) :
    Holds (d.replace x) (xs ++ [x]) := by
  intro y
  rw [Dict.memReplace,latestAppend,held y]

end HpuCache.LatestEntry
