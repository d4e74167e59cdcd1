import Mathlib.Order.Lattice

/-! A place that is held by at most one claimant at a time and goes to the higher rank.
The holder after any claims is the highest of all candidates, so no order matters. -/
namespace HpuCache.RankedClaims

variable {α τ : Type} [LinearOrder τ] {rank : α → τ} {candidate : α → Prop} {holder : Option α}

def claim (rank : α → τ) (holder : Option α) (a : α) : Option α :=
  match holder with
  | none => some a
  | some b => if rank b < rank a then some a else some b

/-- The holder is a candidate of the highest rank, or there is no candidate. -/
def Highest (rank : α → τ) (candidate : α → Prop) : Option α → Prop
  | none => ∀ a, ¬ candidate a
  | some b => candidate b ∧ ∀ a, candidate a → rank a ≤ rank b

theorem highestSame {others : α → Prop} (same : ∀ a, others a ↔ candidate a)
    (highest : Highest rank candidate holder) : Highest rank others holder := by
  cases holder with
  | none => exact fun a inside => highest a ((same a).mp inside)
  | some b => exact ⟨(same b).mpr highest.1,fun a inside => highest.2 a ((same a).mp inside)⟩

theorem highestAlone (rank : α → τ) (holder : Option α) : Highest rank (fun a => holder = some a) holder := by
  cases holder with
  | none => simp [Highest]
  | some b =>
    refine ⟨rfl,fun a same => ?_⟩
    rw [Option.some.inj same]

theorem highestClaim (highest : Highest rank candidate holder) (a : α) :
    Highest rank (fun b => candidate b ∨ b = a) (claim rank holder a) := by
  cases holder with
  | none =>
    refine ⟨.inr rfl,?_⟩
    rintro b (earlier | rfl)
    · exact absurd earlier (highest b)
    · exact le_rfl
  | some c =>
    obtain ⟨inside,above⟩ := highest
    simp only [claim]
    split
    · rename_i lower
      refine ⟨.inr rfl,?_⟩
      rintro b (earlier | rfl)
      · exact le_of_lt (lt_of_le_of_lt (above b earlier) lower)
      · exact le_rfl
    · rename_i held
      refine ⟨.inl inside,?_⟩
      rintro b (earlier | rfl)
      · exact above b earlier
      · exact not_lt.mp held

/-- Where no two candidates share a rank, the highest one is determined. -/
theorem highestUnique {other : Option α} (apart : ∀ a b, candidate a → candidate b → rank a = rank b → a = b)
    (left : Highest rank candidate holder) (right : Highest rank candidate other) : holder = other := by
  cases holder with
  | none =>
    cases other with
    | none => rfl
    | some b => exact absurd right.1 (left b)
  | some a =>
    cases other with
    | none => exact absurd left.1 (right a)
    | some b => rw [apart a b left.1 right.1 (le_antisymm (right.2 a left.1) (left.2 b right.1))]

end HpuCache.RankedClaims
