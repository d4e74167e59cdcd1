import Mathlib.Algebra.BigOperators.Intervals
import Mathlib.Algebra.Order.BigOperators.Group.Finset
import Mathlib.Data.Finset.Image

/-! Contenders of fixed priority that hold numbers. A contender gives a number up, for a
greater one, only when one of higher priority has had the same. However the steps are ordered,
the contender at place `k` holds at most `2^k` numbers in its life: all of them come to rest. -/
namespace HpuCache.Contention

variable {held : Nat → Nat → Nat} {n T : Nat}

/-- The numbers that the contender at place `k` has held up to time `T`. -/
def had (held : Nat → Nat → Nat) (T k : Nat) : Finset Nat := (Finset.range (T + 1)).image fun t => held t k

structure Yields (held : Nat → Nat → Nat) (n T : Nat) : Prop where
  grows : ∀ t < T, ∀ k < n, held t k ≤ held (t + 1) k
  gives : ∀ t < T, ∀ k < n, held (t + 1) k ≠ held t k → ∃ m < k, held t k ∈ had held t m

theorem Yields.earlier {S : Nat} (yields : Yields held n T) (before : S ≤ T) : Yields held n S :=
  ⟨fun t less => yields.grows t (by omega),fun t less => yields.gives t (by omega)⟩

variable (held) in
theorem hadMono {S : Nat} (before : S ≤ T) (k : Nat) : had held S k ⊆ had held T k := by
  refine Finset.image_subset_image fun t inside => ?_
  rw [Finset.mem_range] at inside ⊢
  omega

theorem hadNow (T k : Nat) : held T k ∈ had held T k :=
  Finset.mem_image_of_mem _ (Finset.mem_range.mpr (Nat.lt_succ_self T))

theorem hadNext (T k : Nat) : had held (T + 1) k = insert (held (T + 1) k) (had held T k) := by
  rw [had,Finset.range_add_one,Finset.image_insert,had]

theorem growsLong (yields : Yields held n T) {k t u : Nat} (contender : k < n) (order : t ≤ u) (before : u ≤ T) :
    held t k ≤ held u k := by
  induction u, order using Nat.le_induction with
  | base => exact Nat.le_refl _
  | succ u _ ih => exact (ih (by omega)).trans (yields.grows u (by omega) k contender)

theorem hadBelow (yields : Yields held n T) {k v : Nat} (contender : k < n) (member : v ∈ had held T k) :
    v ≤ held T k := by
  obtain ⟨t,inside,rfl⟩ := Finset.mem_image.mp member
  exact growsLong yields contender (Nat.le_of_lt_succ (Finset.mem_range.mp inside)) (Nat.le_refl T)

/-- What a contender does not hold any more was held by one of higher priority. -/
theorem hadShared (yields : Yields held n T) {k v : Nat} (contender : k < n) (member : v ∈ had held T k)
    (other : v ≠ held T k) : ∃ m < k, v ∈ had held T m := by
  induction T with
  | zero =>
    rw [had,Finset.range_one,Finset.image_singleton,Finset.mem_singleton] at member
    contradiction
  | succ T ih =>
    have before := yields.earlier (Nat.le_succ T)
    have old : v ∈ had held T k := by
      rw [hadNext,Finset.mem_insert] at member
      exact member.resolve_left other
    obtain ⟨m,less,shared⟩ : ∃ m < k, v ∈ had held T m := by
      by_cases current : v = held T k
      · subst current
        exact yields.gives T (Nat.lt_succ_self T) k contender other.symm
      · exact ih before old current
    exact ⟨m,less,hadMono _ (Nat.le_succ T) m shared⟩

theorem hadCard (yields : Yields held n T) {k : Nat} (contender : k < n) :
    (had held T k).card ≤ 1 + ∑ m ∈ Finset.range k, (had held T m).card := by
  have part : had held T k ⊆ {held T k} ∪ (Finset.range k).biUnion (had held T) := by
    intro v member
    rw [Finset.mem_union,Finset.mem_singleton,Finset.mem_biUnion]
    by_cases current : v = held T k
    · exact .inl current
    · obtain ⟨m,less,shared⟩ := hadShared yields contender member current
      exact .inr ⟨m,Finset.mem_range.mpr less,shared⟩
  calc (had held T k).card ≤ ({held T k} ∪ (Finset.range k).biUnion (had held T)).card := Finset.card_le_card part
    _ ≤ ({held T k} : Finset Nat).card + ((Finset.range k).biUnion (had held T)).card := Finset.card_union_le _ _
    _ ≤ 1 + ∑ m ∈ Finset.range k, (had held T m).card := by
      rw [Finset.card_singleton]
      exact Nat.add_le_add_left Finset.card_biUnion_le 1

/-- All the numbers that the first `k` contenders have ever held. -/
theorem hadSum (yields : Yields held n T) {k : Nat} (some : k ≤ n) :
    ∑ m ∈ Finset.range k, (had held T m).card + 1 ≤ 2 ^ k := by
  induction k with
  | zero => simp
  | succ k ih =>
    have before := ih (by omega)
    have last := hadCard yields (show k < n by omega)
    rw [Finset.sum_range_succ,Nat.pow_succ]
    omega

theorem hadBound (yields : Yields held n T) {k : Nat} (contender : k < n) : (had held T k).card ≤ 2 ^ k := by
  have card := hadCard yields contender
  have sum := hadSum yields (Nat.le_of_lt contender)
  omega

/-- Some contender holds another number at the later of two times. -/
def Moved (held : Nat → Nat → Nat) (n S T : Nat) : Prop := ∃ k < n, held S k ≠ held T k

instance (S T : Nat) : Decidable (Moved held n S T) := inferInstanceAs (Decidable (∃ k < n, held S k ≠ held T k))

theorem movedCard {S : Nat} (yields : Yields held n T) (before : S ≤ T) (moved : Moved held n S T) :
    ∑ m ∈ Finset.range n, (had held S m).card + 1 ≤ ∑ m ∈ Finset.range n, (had held T m).card := by
  obtain ⟨k,contender,other⟩ := moved
  refine Finset.sum_lt_sum (fun m _ => Finset.card_le_card (hadMono _ before m))
    ⟨k,Finset.mem_range.mpr contender,Finset.card_lt_card ?_⟩
  refine Finset.ssubset_iff_subset_ne.mpr ⟨hadMono _ before k,fun same => ?_⟩
  have now : held T k ∈ had held S k := same ▸ hadNow T k
  have bound := hadBelow (yields.earlier before) contender now
  have grown := growsLong yields contender before (Nat.le_refl T)
  omega

/-- The stretches of time, one after the other, in which a number changes: fewer than `2^n - n`. -/
theorem movesBounded {marks : Nat → Nat} {count : Nat} (ordered : ∀ l < count, marks l ≤ marks (l + 1))
    (yields : Yields held n (marks count)) :
    (List.range count).countP (fun l => decide (Moved held n (marks l) (marks (l + 1)))) + n + 1 ≤ 2 ^ n := by
  have total := hadSum yields (Nat.le_refl n)
  suffices grown : (List.range count).countP (fun l => decide (Moved held n (marks l) (marks (l + 1)))) + n ≤
      ∑ m ∈ Finset.range n, (had held (marks count) m).card by omega
  clear total
  induction count with
  | zero =>
    have each : ∀ m ∈ Finset.range n, 1 ≤ (had held (marks 0) m).card := fun m _ =>
      Finset.card_pos.mpr ⟨_,hadNow (marks 0) m⟩
    have ones := Finset.sum_le_sum each
    rw [← Finset.card_eq_sum_ones,Finset.card_range] at ones
    rw [List.range_zero,List.countP_nil,Nat.zero_add]
    exact ones
  | succ count ih =>
    have before : marks count ≤ marks (count + 1) := ordered count (Nat.lt_succ_self count)
    have earlier := ih (fun l less => ordered l (by omega)) (yields.earlier before)
    rw [List.range_succ,List.countP_append,List.countP_singleton]
    by_cases moved : Moved held n (marks count) (marks (count + 1))
    · have more := movedCard yields before moved
      simp only [moved,decide_true,if_true]
      omega
    · have same := Finset.sum_le_sum fun m (_ : m ∈ Finset.range n) =>
        Finset.card_le_card (hadMono held before m)
      simp only [moved,decide_false,Bool.false_eq_true,if_false]
      omega

end HpuCache.Contention
