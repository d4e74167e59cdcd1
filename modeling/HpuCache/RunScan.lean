import Mathlib.Data.List.FinRange

/-! The runs of a property of numbers, found by one scan from zero: where the open run starts, and
the first and last number of every run that is closed. Nothing here names a program. -/
namespace HpuCache.RunScan

variable {own : Nat → Bool}

structure Runs where
  -- The start of the run that is still open.
  start : Option Nat
  closed : List (Nat × Nat)

def scanStep (own : Nat → Bool) (st : Runs) (i : Nat) : Runs :=
  if own i then { st with start := st.start.or (some i) }
  else
    match st.start with
    | none => st
    | some start => ⟨none,st.closed ++ [(start,i - 1)]⟩

def scan (own : Nat → Bool) (k : Nat) : Runs := (List.range k).foldl (scanStep own) ⟨none,[]⟩

/-- The runs below a bound; one that reaches the bound is closed there. -/
def runs (own : Nat → Bool) (k : Nat) : List (Nat × Nat) :=
  match (scan own k).start with
  | none => (scan own k).closed
  | some start => (scan own k).closed ++ [(start,k - 1)]

theorem scanSucc (own : Nat → Bool) (k : Nat) : scan own (k + 1) = scanStep own (scan own k) k := by
  rw [scan,List.range_succ,List.foldl_append]
  rfl

theorem scanOwn {k : Nat} (mine : own k = true) :
    scan own (k + 1) = { scan own k with start := (scan own k).start.or (some k) } := by
  rw [scanSucc,scanStep,if_pos mine]

theorem scanOther {k : Nat} (other : own k = false) (idle : (scan own k).start = none) :
    scan own (k + 1) = scan own k := by
  rw [scanSucc,scanStep,other,idle]
  rfl

/-- Numbers without the property leave the scan as it is where no run is open. -/
theorem scanGap {first past : Nat} (idle : (scan own first).start = none) (after : first ≤ past)
    (other : ∀ i, first ≤ i → i < past → own i = false) : scan own past = scan own first := by
  induction past, after using Nat.le_induction with
  | base => rfl
  | succ past after ih =>
    have before := ih fun i late below => other i late (Nat.lt_succ_of_lt below)
    rw [scanOther (other past after (Nat.lt_succ_self past)) (before ▸ idle),before]

theorem scanClose {k start : Nat} (other : own k = false) (run : (scan own k).start = some start) :
    scan own (k + 1) = ⟨none,(scan own k).closed ++ [(start,k - 1)]⟩ := by
  rw [scanSucc,scanStep,other,run]
  rfl

theorem scanOpen {k start : Nat} (run : (scan own k).start = some start) : start < k ∧ own start = true := by
  induction k with
  | zero => simp [scan] at run
  | succ k ih =>
    cases mine : own k with
    | true =>
      rw [scanOwn mine] at run
      cases before : (scan own k).start with
      | none =>
        rw [before] at run
        obtain rfl := Option.some.inj run
        exact ⟨Nat.lt_succ_self _,mine⟩
      | some first =>
        rw [before] at run
        obtain rfl := Option.some.inj run
        exact ⟨Nat.lt_succ_of_lt (ih before).1,(ih before).2⟩
    | false =>
      cases before : (scan own k).start with
      | none =>
        rw [scanOther mine before,before] at run
        contradiction
      | some first =>
        rw [scanClose mine before] at run
        contradiction

/-- A run is open behind a number exactly when the number is in it. -/
theorem scanLast {k : Nat} : (scan own (k + 1)).start = none ↔ own k = false := by
  cases mine : own k with
  | true =>
    rw [scanOwn mine]
    cases (scan own k).start <;> simp
  | false =>
    cases before : (scan own k).start with
    | none => simp [scanOther mine before,before]
    | some first => simp [scanClose mine before]

theorem scanInside {k : Nat} : ∀ range ∈ (scan own k).closed, range.1 ≤ range.2 ∧ range.2 < k := by
  induction k with
  | zero => exact nofun
  | succ k ih =>
    have early : ∀ range ∈ (scan own k).closed, range.1 ≤ range.2 ∧ range.2 < k + 1 := fun range member =>
      ⟨(ih range member).1,Nat.lt_succ_of_lt (ih range member).2⟩
    cases mine : own k with
    | true =>
      rw [scanOwn mine]
      exact early
    | false =>
      cases before : (scan own k).start with
      | none =>
        rw [scanOther mine before]
        exact early
      | some start =>
        have below := (scanOpen before).1
        rw [scanClose mine before]
        intro range member
        rcases List.mem_append.mp member with member | last
        · exact early range member
        · rw [List.mem_singleton.mp last]
          exact ⟨Nat.le_sub_one_of_lt below,by dsimp only; omega⟩

/-- The closed runs and the open one hold the numbers of the property, in order. -/
theorem scanCovers (own : Nat → Bool) (k : Nat) :
    (scan own k).closed.flatMap (fun range => List.range' range.1 (range.2 + 1 - range.1)) ++
      (scan own k).start.elim [] (fun start => List.range' start (k - start)) = (List.range k).filter own := by
  induction k with
  | zero => rfl
  | succ k ih =>
    rw [List.range_succ,List.filter_append,← ih]
    cases mine : own k with
    | true =>
      rw [scanOwn mine,List.filter_cons_of_pos mine,List.filter_nil]
      cases before : (scan own k).start with
      | none =>
        have alone : k + 1 - k = 1 := by omega
        simp [alone]
      | some start =>
        have below := (scanOpen before).1
        have last : k + 1 - start = k - start + 1 := by omega
        have there : start + (k - start) = k := by omega
        simp [last,List.range'_concat,there]
    | false =>
      rw [List.filter_cons_of_neg (by simp [mine]),List.filter_nil,List.append_nil]
      cases before : (scan own k).start with
      | none => simp [scanOther mine before,before]
      | some start =>
        have below := (scanOpen before).1
        have last : k - 1 + 1 - start = k - start := by omega
        simp [scanClose mine before,last]

theorem runsInside {k : Nat} : ∀ range ∈ runs own k, range.1 ≤ range.2 ∧ range.2 < k := by
  rw [runs]
  cases before : (scan own k).start with
  | none => exact scanInside
  | some start =>
    have below := (scanOpen before).1
    intro range member
    rcases List.mem_append.mp member with member | last
    · exact scanInside range member
    · rw [List.mem_singleton.mp last]
      exact ⟨Nat.le_sub_one_of_lt below,by dsimp only; omega⟩

theorem runsCover (own : Nat → Bool) (k : Nat) :
    (runs own k).flatMap (fun range => List.range' range.1 (range.2 + 1 - range.1)) = (List.range k).filter own := by
  have whole := scanCovers own k
  rw [runs]
  cases before : (scan own k).start with
  | none => simpa [before] using whole
  | some start =>
    have below := (scanOpen before).1
    have last : k - 1 + 1 - start = k - start := by omega
    rw [before] at whole
    simpa [last] using whole

theorem runsNone {k : Nat} : runs own k = [] ↔ ∀ i < k, own i = false := by
  have idle : (scan own k).start = none ∧ (scan own k).closed = [] ↔ ∀ i < k, own i = false := by
    induction k with
    | zero => simp [scan]
    | succ k ih =>
      constructor
      · rintro ⟨closed,bare⟩
        have other := scanLast.mp closed
        cases before : (scan own k).start with
        | none =>
          rw [scanOther other before] at bare
          intro i below
          rcases Nat.lt_succ_iff_lt_or_eq.mp below with earlier | rfl
          · exact ih.mp ⟨before,bare⟩ i earlier
          · exact other
        | some first =>
          rw [scanClose other before] at bare
          simp at bare
      · intro none_
        obtain ⟨before,bare⟩ := ih.mpr fun i below => none_ i (Nat.lt_succ_of_lt below)
        rw [scanOther (none_ k (Nat.lt_succ_self k)) before]
        exact ⟨before,bare⟩
  rw [← idle,runs]
  cases before : (scan own k).start <;> simp

end HpuCache.RunScan
