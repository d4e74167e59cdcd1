import Mathlib.Data.Nat.Bitwise
import Mathlib.Logic.Function.Iterate
import Mathlib.Tactic.Ring

/-! Counting with the bits in a mirror. A word has a place, that of its bits read backwards, and
tables of two to the power of any number of cells cut the places into equal intervals, the finer
tables within the coarser ones. A cursor that moves by places therefore has the same words behind
it whatever table it moves over. Nothing here names a program. -/
namespace HpuCache.ScanOrder

variable {w : Nat}

def place (x : BitVec w) : Nat := x.reverse.toNat

/-- The cell of a word in a table of `2 ^ e` cells. -/
def cell (x : BitVec w) (e : Nat) : Nat := x.toNat % 2 ^ e

def lowMask (e : Nat) : BitVec w := BitVec.ofNat w (2 ^ e - 1)

/-- The first place behind the cell of the cursor. -/
def advance (e : Nat) (v : BitVec w) : BitVec w := ((v ||| ~~~lowMask e).reverse + 1#w).reverse

theorem placeBound (x : BitVec w) : place x < 2 ^ w := x.reverse.isLt

theorem placeInjective {x y : BitVec w} (same : place x = place y) : x = y := by
  rw [← BitVec.reverse_reverse_eq (x := x),BitVec.eq_of_toNat_eq same,BitVec.reverse_reverse_eq]

theorem maskGet (e : Nat) {i : Nat} (inside : i < w) : (lowMask e : BitVec w).getLsbD i = decide (i < e) := by
  rw [lowMask,BitVec.getLsbD_ofNat,Nat.testBit_two_pow_sub_one]
  simp [inside]

theorem cellMask {e : Nat} (small : e ≤ w) (x : BitVec w) : (x &&& lowMask e).toNat = cell x e := by
  have fits : 2 ^ e - 1 < 2 ^ w := Nat.lt_of_lt_of_le (Nat.sub_one_lt (Nat.two_pow_pos e).ne') (Nat.pow_le_pow_right (by omega) small)
  rw [BitVec.toNat_and,lowMask,BitVec.toNat_ofNat,Nat.mod_eq_of_lt fits,Nat.and_two_pow_sub_one_eq_mod]
  rfl

theorem cellBound (x : BitVec w) (e : Nat) : cell x e < 2 ^ e := Nat.mod_lt _ (Nat.two_pow_pos e)

theorem placeBit (x : BitVec w) {i : Nat} (inside : i < w) : (place x).testBit i = x.getLsbD (w - 1 - i) := by
  change x.reverse.getLsbD i = _
  rw [BitVec.getLsbD_reverse,BitVec.getMsbD]
  simp [inside]

/-- Two words share a cell when their places share an interval. -/
theorem cellIff {e : Nat} (small : e ≤ w) (x y : BitVec w) :
    cell x e = cell y e ↔ place x / 2 ^ (w - e) = place y / 2 ^ (w - e) := by
  constructor
  · intro same
    apply Nat.eq_of_testBit_eq
    intro i
    rw [Nat.testBit_div_two_pow,Nat.testBit_div_two_pow]
    by_cases inside : i + (w - e) < w
    · rw [placeBit x inside,placeBit y inside]
      have bit := congrArg (fun n => n.testBit (w - 1 - (i + (w - e)))) same
      simpa only [cell,Nat.testBit_mod_two_pow,show w - 1 - (i + (w - e)) < e by omega,decide_true,Bool.true_and,BitVec.testBit_toNat] using bit
    · have high (z : BitVec w) : (place z).testBit (i + (w - e)) = false :=
        Nat.testBit_lt_two_pow (Nat.lt_of_lt_of_le (placeBound z) (Nat.pow_le_pow_right (by omega) (by omega)))
      rw [high,high]
  · intro same
    apply Nat.eq_of_testBit_eq
    intro i
    rw [cell,cell,Nat.testBit_mod_two_pow,Nat.testBit_mod_two_pow]
    by_cases low : i < e
    · have bit := congrArg (fun n => n.testBit (e - 1 - i)) same
      simp only [Nat.testBit_div_two_pow] at bit
      rw [placeBit x (by omega),placeBit y (by omega),show w - 1 - (e - 1 - i + (w - e)) = i by omega] at bit
      exact congrArg _ bit
    · simp [low]

theorem placeFilled {e : Nat} (small : e ≤ w) (v : BitVec w) :
    place (v ||| ~~~lowMask e) = 2 ^ (w - e) * (place v / 2 ^ (w - e)) + (2 ^ (w - e) - 1) := by
  apply Nat.eq_of_testBit_eq
  intro i
  rw [Nat.testBit_two_pow_mul_add _ (Nat.sub_one_lt (Nat.two_pow_pos _).ne'),Nat.testBit_two_pow_sub_one,Nat.testBit_div_two_pow]
  by_cases inside : i < w
  · rw [placeBit _ inside,BitVec.getLsbD_or,BitVec.getLsbD_not,maskGet e (by omega)]
    by_cases low : i < w - e
    · simp [low,show w - 1 - i < w by omega,show ¬ w - 1 - i < e by omega]
    · rw [show i - (w - e) + (w - e) = i by omega,placeBit v inside]
      simp [low,show w - 1 - i < e by omega]
  · rw [Nat.testBit_lt_two_pow (Nat.lt_of_lt_of_le (placeBound _) (Nat.pow_le_pow_right (by omega) (by omega))),if_neg (by omega),
      show i - (w - e) + (w - e) = i by omega,
      Nat.testBit_lt_two_pow (Nat.lt_of_lt_of_le (placeBound _) (Nat.pow_le_pow_right (by omega) (by omega)))]

theorem placeAdvance {e : Nat} (small : e ≤ w) (v : BitVec w) :
    place (advance e v) = (place v / 2 ^ (w - e) + 1) * 2 ^ (w - e) % 2 ^ w := by
  have filled := placeFilled small v
  have size := Nat.two_pow_pos (w - e)
  rw [place] at filled
  rw [place,advance,BitVec.reverse_reverse_eq,BitVec.toNat_add,filled,BitVec.toNat_ofNat,Nat.add_mod_mod,Nat.add_assoc,
    Nat.sub_add_cancel size,Nat.add_mul,Nat.one_mul,Nat.mul_comm]

theorem placeZero : place 0#w = 0 := by
  have zero : (0#w).reverse = 0#w := by
    apply BitVec.eq_of_getLsbD_eq
    intro i inside
    rw [BitVec.getLsbD_reverse,BitVec.getMsbD_zero,BitVec.getLsbD_zero]
  rw [place,zero,BitVec.toNat_zero]

theorem intervalEnd {e : Nat} (small : e ≤ w) (v : BitVec w) : (place v / 2 ^ (w - e) + 1) * 2 ^ (w - e) ≤ 2 ^ w := by
  have whole : 2 ^ w = 2 ^ e * 2 ^ (w - e) := by rw [← Nat.pow_add,show e + (w - e) = w by omega]
  have bound := placeBound v
  rw [whole,← Nat.div_lt_iff_lt_mul (Nat.two_pow_pos _)] at bound
  rw [whole]
  exact Nat.mul_le_mul_right _ bound

/-- What the cursor leaves behind was behind it before, or in its cell. -/
theorem advanceBehind {e : Nat} (small : e ≤ w) {x v : BitVec w}
    (behind : place x < place (advance e v) ∨ advance e v = 0#w) : place x < place v ∨ cell x e = cell v e := by
  have size := Nat.two_pow_pos (w - e)
  have next := placeAdvance small v
  have stop : place x < (place v / 2 ^ (w - e) + 1) * 2 ^ (w - e) := by
    rcases Nat.lt_or_eq_of_le (intervalEnd small v) with inside | wrapped
    · rw [Nat.mod_eq_of_lt inside] at next
      rcases behind with less | zero
      · rwa [next] at less
      · rw [zero,placeZero] at next
        exact absurd next.symm (Nat.mul_pos (Nat.succ_pos _) size).ne'
    · rw [wrapped]
      exact placeBound x
  rw [← Nat.div_lt_iff_lt_mul size] at stop
  rcases Nat.lt_or_eq_of_le (Nat.le_of_lt_succ stop) with less | same
  · left
    by_contra ahead
    exact absurd (Nat.div_le_div_right (Nat.le_of_not_lt ahead)) (Nat.not_le.mpr less)
  · exact .inr ((cellIff small x v).mpr same)

section finer
variable {coarse fine : Nat}

/-- The fine cells of the cursor's coarse cell that it has left behind. -/
def within (coarse fine : Nat) (v : BitVec w) : Nat := place v / 2 ^ (w - fine) % 2 ^ (fine - coarse)

theorem clearIff (finer : coarse ≤ fine) (small : fine ≤ w) (u : BitVec w) :
    u &&& (lowMask coarse ^^^ lowMask fine) = 0#w ↔ within coarse fine u = 0 := by
  constructor
  · intro clear
    apply Nat.eq_of_testBit_eq
    intro i
    rw [within,Nat.testBit_mod_two_pow,Nat.testBit_div_two_pow,Nat.zero_testBit]
    by_cases low : i < fine - coarse
    · have bit := congrArg (fun x => BitVec.getLsbD x (fine - 1 - i)) clear
      simp only [BitVec.getLsbD_and,BitVec.getLsbD_xor,BitVec.getLsbD_zero] at bit
      rw [maskGet coarse (by omega),maskGet fine (by omega)] at bit
      rw [placeBit u (by omega),show w - 1 - (i + (w - fine)) = fine - 1 - i by omega]
      simpa [low,show ¬ fine - 1 - i < coarse by omega,show fine - 1 - i < fine by omega] using bit
    · simp [low]
  · intro none
    apply BitVec.eq_of_getLsbD_eq
    intro i inside
    rw [BitVec.getLsbD_and,BitVec.getLsbD_xor,maskGet coarse inside,maskGet fine inside,BitVec.getLsbD_zero]
    by_cases between : coarse ≤ i ∧ i < fine
    · have bit := congrArg (fun n => n.testBit (fine - 1 - i)) none
      rw [within,Nat.testBit_mod_two_pow,Nat.testBit_div_two_pow,placeBit u (by omega),Nat.zero_testBit,
        show w - 1 - (fine - 1 - i + (w - fine)) = i by omega] at bit
      simpa [show fine - 1 - i < fine - coarse by omega,between,show ¬ i < coarse by omega] using bit
    · by_cases low : i < coarse
      · simp [low,show i < fine by omega]
      · simp [low,show ¬ i < fine by omega]

theorem coarsePlace (finer : coarse ≤ fine) (small : fine ≤ w) (v : BitVec w) :
    place (advance coarse v) =
      (place v / 2 ^ (w - fine) / 2 ^ (fine - coarse) + 1) * 2 ^ (fine - coarse) * 2 ^ (w - fine) % 2 ^ w := by
  have steps : 2 ^ (w - coarse) = 2 ^ (fine - coarse) * 2 ^ (w - fine) := by
    rw [← Nat.pow_add,show fine - coarse + (w - fine) = w - coarse by omega]
  rw [placeAdvance (Nat.le_trans finer small),steps,Nat.div_div_eq_div_mul,Nat.mul_comm (2 ^ (w - fine)),Nat.mul_assoc]

/-- Where a cursor stands after one fine step: at the next coarse cell, or one further in the same. -/
theorem fineStep (finer : coarse ≤ fine) (small : fine ≤ w) (v : BitVec w) :
    (within coarse fine (advance fine v) = 0 ∧ advance fine v = advance coarse v) ∨
      (within coarse fine (advance fine v) = within coarse fine v + 1 ∧
        advance coarse (advance fine v) = advance coarse v) := by
  have cells : 2 ^ fine = 2 ^ (fine - coarse) * 2 ^ coarse := by rw [← Nat.pow_add,show fine - coarse + coarse = fine by omega]
  have whole : 2 ^ w = 2 ^ fine * 2 ^ (w - fine) := by rw [← Nat.pow_add,show fine + (w - fine) = w by omega]
  have size := Nat.two_pow_pos (w - fine)
  have next := placeAdvance small v
  have stop := intervalEnd small v
  have last := coarsePlace finer small v
  have far := coarsePlace finer small (advance fine v)
  generalize counted : place v / 2 ^ (w - fine) = a at next stop last
  have moved : place (advance fine v) / 2 ^ (w - fine) = (a + 1) % 2 ^ fine := by
    rw [next,whole,Nat.mul_mod_mul_right,Nat.mul_div_cancel _ size]
  rw [moved] at far
  rw [within,moved,within,counted,cells,Nat.mod_mul_right_mod]
  by_cases full : (a + 1) % 2 ^ (fine - coarse) = 0
  · left
    refine ⟨full,placeInjective ?_⟩
    have exact : (a / 2 ^ (fine - coarse) + 1) * 2 ^ (fine - coarse) = a + 1 := by
      rw [← Nat.succ_div_of_dvd (Nat.dvd_of_mod_eq_zero full),Nat.div_mul_cancel (Nat.dvd_of_mod_eq_zero full)]
    rw [next,last,exact]
  · right
    have inside : a + 1 < 2 ^ fine := by
      rw [whole] at stop
      refine Nat.lt_of_le_of_ne (Nat.le_of_mul_le_mul_right stop size) fun wrapped => full ?_
      rw [wrapped,cells,Nat.mul_mod_right]
    have same : (a + 1) / 2 ^ (fine - coarse) = a / 2 ^ (fine - coarse) :=
      Nat.succ_div_of_not_dvd fun divides => full (Nat.mod_eq_zero_of_dvd divides)
    refine ⟨?_,placeInjective ?_⟩
    · have left := Nat.div_add_mod (a + 1) (2 ^ (fine - coarse))
      have right := Nat.div_add_mod a (2 ^ (fine - coarse))
      rw [same] at left
      omega
    · rw [far,last,Nat.mod_eq_of_lt inside,same]

end finer

end HpuCache.ScanOrder
