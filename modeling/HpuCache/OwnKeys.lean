import HpuCache.KeyedDict

/-! Operations that read and write their own keys only, on a dictionary whose keys are being
handed over to a second one. As long as every operation runs where its keys are, the two
halves are as good as the one dictionary. Nothing here names a program. -/
namespace HpuCache.OwnKeys
open KeyedDict

variable {κ α ρ : Type} [DecidableEq κ] {key : α → κ}

/-- An operation on dictionaries with the keys that it may touch. -/
structure Operation (key : α → κ) (ρ : Type) where
  keys : List κ
  run : Dict key → ρ × Dict key
  reads : ∀ s t, (∀ k ∈ keys, s.find k = t.find k) →
    (run s).1 = (run t).1 ∧ ∀ k ∈ keys, (run s).2.find k = (run t).2.find k
  writes : ∀ s k, k ∉ keys → (run s).2.find k = s.find k

/-- The replies of operations that run one after the other, and what they leave. -/
def serial (ops : List (Operation key ρ)) (s : Dict key) : List ρ × Dict key :=
  ops.foldl (fun acc op => (acc.1 ++ [(op.run acc.2).1],(op.run acc.2).2)) ([],s)

theorem serialNext (ops : List (Operation key ρ)) (op : Operation key ρ) (s : Dict key) :
    serial (ops ++ [op]) s = ((serial ops s).1 ++ [(op.run (serial ops s).2).1],(op.run (serial ops s).2).2) := by
  rw [serial,List.foldl_append,← serial]
  rfl

def deleteAll (s : Dict key) (keys : List κ) : Dict key := keys.foldl Dict.delete s

theorem findDeleteAll (s : Dict key) (keys : List κ) (k : κ) :
    (deleteAll s keys).find k = if k ∈ keys then none else s.find k := by
  induction keys generalizing s with
  | nil => rfl
  | cons j rest ih =>
    rw [deleteAll,List.foldl_cons,← deleteAll,ih,Dict.findDelete]
    simp only [List.mem_cons,eq_comm (a := k)]
    by_cases later : k ∈ rest
    · simp only [later,or_true,if_true]
    · simp only [later,or_false,if_false]

/-- Where a key is: with the second half once it was handed over, and before that with the half
that has it. -/
def joined (first second : Dict key) (handed : List κ) (k : κ) : Option α :=
  if k ∈ handed then second.find k else (first.find k).or (second.find k)

/-- The two halves hold what the one dictionary holds, for the keys that satisfy `p`; only keys
that were just handed over are in both. -/
structure Halves (p : κ → Prop) (whole first second : Dict key) (handed : List κ) : Prop where
  view : ∀ k, p k → whole.find k = joined first second handed k
  apart : ∀ k, p k → k ∉ handed → (first.find k).isSome → second.find k = none

section
variable {p : κ → Prop} {whole first second : Dict key} {handed : List κ}

theorem halvesOne (alone : ∀ k, p k → second.find k = none) : Halves p first first second [] := by
  refine ⟨fun k inside => ?_,fun k inside _ _ => alone k inside⟩
  rw [joined,if_neg List.not_mem_nil,alone k inside,Option.or_none]

/-- An operation on the first half, whose keys the second one does not have. -/
theorem Halves.atFirst (halves : Halves p whole first second []) (op : Operation key ρ)
    (own : ∀ k ∈ op.keys, p k) (absent : ∀ k ∈ op.keys, second.find k = none) :
    (op.run whole).1 = (op.run first).1 ∧ Halves p (op.run whole).2 (op.run first).2 second [] := by
  have agree : ∀ k ∈ op.keys, whole.find k = first.find k := by
    intro k member
    rw [halves.view k (own k member),joined,if_neg List.not_mem_nil,absent k member,Option.or_none]
  obtain ⟨reply,after⟩ := op.reads whole first agree
  refine ⟨reply,fun k inside => ?_,fun k inside fresh here => ?_⟩
  · by_cases member : k ∈ op.keys
    · rw [joined,if_neg List.not_mem_nil,absent k member,Option.or_none]
      exact after k member
    · rw [op.writes _ k member,halves.view k inside,joined,joined,op.writes _ k member]
  · by_cases member : k ∈ op.keys
    · exact absent k member
    · rw [op.writes _ k member] at here
      exact halves.apart k inside fresh here

/-- An operation on the second half, each key of which was handed over or is not in the first. -/
theorem Halves.atSecond (halves : Halves p whole first second handed) (op : Operation key ρ)
    (own : ∀ k ∈ op.keys, p k) (gone : ∀ k ∈ op.keys, k ∈ handed ∨ first.find k = none) :
    (op.run whole).1 = (op.run second).1 ∧ Halves p (op.run whole).2 first (op.run second).2 handed := by
  have there (t : Dict key) : ∀ k ∈ op.keys, joined first t handed k = t.find k := by
    intro k member
    rcases gone k member with given | none
    · rw [joined,if_pos given]
    · rw [joined,none,Option.none_or,ite_self]
  have agree : ∀ k ∈ op.keys, whole.find k = second.find k := by
    intro k member
    rw [halves.view k (own k member),there second k member]
  obtain ⟨reply,after⟩ := op.reads whole second agree
  refine ⟨reply,fun k inside => ?_,fun k inside fresh here => ?_⟩
  · by_cases member : k ∈ op.keys
    · rw [there _ k member]
      exact after k member
    · rw [op.writes _ k member,halves.view k inside,joined,joined,op.writes _ k member]
  · by_cases member : k ∈ op.keys
    · have none := (gone k member).resolve_left fresh
      rw [none] at here
      contradiction
    · rw [op.writes _ k member]
      exact halves.apart k inside fresh here

/-- An operation without keys answers alike everywhere. -/
theorem Halves.keyless (halves : Halves p whole first second handed) (op : Operation key ρ) (none : op.keys = [])
    (s : Dict key) : (op.run whole).1 = (op.run s).1 ∧ Halves p (op.run whole).2 first second handed := by
  refine ⟨(op.reads whole s (by simp [none])).1,fun k inside => ?_,halves.apart⟩
  rw [op.writes _ k (by simp [none]),halves.view k inside]

/-- What other keys become in either half does not show. -/
theorem Halves.others (halves : Halves p whole first second handed) {first' second' : Dict key}
    (left : ∀ k, p k → first'.find k = first.find k) (right : ∀ k, p k → second'.find k = second.find k) :
    Halves p whole first' second' handed := by
  refine ⟨fun k inside => ?_,fun k inside fresh here => ?_⟩
  · rw [halves.view k inside,joined,joined,left k inside,right k inside]
  · rw [right k inside]
    exact halves.apart k inside fresh (left k inside ▸ here)

/-- A key of the first half is handed over with its value. -/
theorem Halves.hand (halves : Halves p whole first second handed) {e : α} (here : first.find (key e) = some e)
    (fresh : key e ∉ handed) : Halves p whole first (second.replace e) (key e :: handed) := by
  refine ⟨fun k inside => ?_,fun k inside other held => ?_⟩
  · rw [halves.view k inside,joined,joined]
    by_cases same : key e = k
    · subst same
      simp [fresh,here,Dict.findReplaceSame]
    · rw [Dict.findReplaceOther _ same]
      simp [Ne.symm same]
  · have apart : key e ≠ k := fun same => other (same ▸ List.mem_cons_self)
    rw [Dict.findReplaceOther _ apart]
    exact halves.apart k inside (fun old => other (List.mem_cons_of_mem _ old)) held

/-- The first half lets go of what was handed over. -/
theorem Halves.drop (halves : Halves p whole first second handed) :
    Halves p whole (deleteAll first handed) second [] := by
  refine ⟨fun k inside => ?_,fun k inside _ held => ?_⟩
  · rw [halves.view k inside,joined,joined,findDeleteAll,if_neg List.not_mem_nil]
    by_cases given : k ∈ handed <;> simp [given]
  · rw [findDeleteAll] at held
    split at held
    · contradiction
    · next fresh => exact halves.apart k inside fresh held

end

end HpuCache.OwnKeys
