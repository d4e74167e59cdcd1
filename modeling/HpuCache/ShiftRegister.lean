import Mathlib.Logic.Function.Iterate

/-! Shift registers with feedback: the remainder of a message, bit after bit. A register is
linear, so it may be run over several bits at once and by parts, and it is injective when the
feedback reaches its top, so what it was fed a short while ago cannot cancel out. Nothing here
names a program. -/
namespace HpuCache.ShiftRegister

variable {w : Nat} (poly : BitVec w)

/-- One shift to the right; the bit that leaves is fed back. -/
def shift (r : BitVec w) : BitVec w := r >>> 1 ^^^ if r.getLsbD 0 then poly else 0#w

def bitWord (b : Bool) : BitVec w := if b then 1#w else 0#w

def feedBit (r : BitVec w) (b : Bool) : BitVec w := shift poly (r ^^^ bitWord b)

def feed (r : BitVec w) (bits : List Bool) : BitVec w := bits.foldl (feedBit poly) r

/-- The word with these bits, the lowest one first. -/
def ofBits : List Bool → BitVec w
  | [] => 0#w
  | b :: rest => bitWord b ^^^ ofBits rest <<< 1

def bitsOf {n : Nat} (x : BitVec n) : List Bool := (List.range n).map x.getLsbD

/-- The same register seen in a mirror: it shifts to the left. -/
def feedLeft (r : BitVec w) (b : Bool) : BitVec w := r <<< 1 ^^^ if r.msb ^^ b then poly else 0#w

section
variable {poly}

theorem xorMiddle (a b c d : BitVec w) : a ^^^ b ^^^ (c ^^^ d) = a ^^^ c ^^^ (b ^^^ d) := by
  rw [BitVec.xor_assoc,← BitVec.xor_assoc b,BitVec.xor_comm b c,BitVec.xor_assoc c,← BitVec.xor_assoc a]

theorem bitWordGet (b : Bool) (i : Nat) : (bitWord b : BitVec w).getLsbD i = (b && decide (i = 0) && decide (0 < w)) := by
  cases b <;> simp [bitWord,BitVec.getLsbD_one,Bool.and_comm]

theorem shiftXor (a b : BitVec w) : shift poly (a ^^^ b) = shift poly a ^^^ shift poly b := by
  have parts : (if (a ^^^ b).getLsbD 0 then poly else 0#w) =
      (if a.getLsbD 0 then poly else 0#w) ^^^ if b.getLsbD 0 then poly else 0#w := by
    rw [BitVec.getLsbD_xor]
    cases a.getLsbD 0 <;> cases b.getLsbD 0 <;> simp
  rw [shift,parts,BitVec.ushiftRight_xor_distrib,xorMiddle]
  rfl

theorem shiftsXor (n : Nat) (a b : BitVec w) : (shift poly)^[n] (a ^^^ b) = (shift poly)^[n] a ^^^ (shift poly)^[n] b := by
  induction n generalizing a b with
  | zero => rfl
  | succ n ih => simp only [Function.iterate_succ_apply,shiftXor,ih]

theorem shiftZero : shift poly 0#w = 0#w := by simp [shift]

theorem shiftsZero (n : Nat) : (shift poly)^[n] 0#w = 0#w := Function.iterate_fixed shiftZero n

/-- Bits above the lowest one only move down. -/
theorem shiftRaised {x : BitVec w} (room : x.getLsbD (w - 1) = false) : shift poly (x <<< 1) = x := by
  apply BitVec.eq_of_getLsbD_eq
  intro i inside
  simp only [shift,BitVec.getLsbD_xor,BitVec.getLsbD_ushiftRight,BitVec.getLsbD_shiftLeft]
  by_cases last : i = w - 1
  · subst last
    simp [room]
  · simp [show 1 + i < w by omega]

theorem shiftsRaised (n : Nat) {x : BitVec w} (room : ∀ i, w - n ≤ i → x.getLsbD i = false) :
    (shift poly)^[n] (x <<< n) = x := by
  induction n with
  | zero => simp
  | succ n ih =>
    rw [Function.iterate_succ_apply,BitVec.shiftLeft_add,shiftRaised,ih fun i high => room i (by omega)]
    rw [BitVec.getLsbD_shiftLeft]
    by_cases low : w - 1 < n
    · simp [low]
    · rw [room (w - 1 - n) (by omega),Bool.and_false]

/-- A register may be run over its lowest bits alone; the others move down. -/
theorem shiftsSplit (n : Nat) (r : BitVec w) :
    (shift poly)^[n] r = (shift poly)^[n] ((r.setWidth n).setWidth w) ^^^ r >>> n := by
  have parts : r = (r.setWidth n).setWidth w ^^^ (r >>> n) <<< n := by
    apply BitVec.eq_of_getLsbD_eq
    intro i inside
    simp only [BitVec.getLsbD_xor,BitVec.getLsbD_setWidth,BitVec.getLsbD_shiftLeft,BitVec.getLsbD_ushiftRight]
    by_cases low : i < n
    · simp [low,inside]
    · simp [low,inside,show n + (i - n) = i by omega]
  have high : (shift poly)^[n] ((r >>> n) <<< n) = r >>> n := by
    refine shiftsRaised n fun i above => ?_
    rw [BitVec.getLsbD_ushiftRight]
    exact BitVec.getLsbD_of_ge r _ (by omega)
  calc (shift poly)^[n] r = (shift poly)^[n] ((r.setWidth n).setWidth w ^^^ (r >>> n) <<< n) := congrArg _ parts
    _ = (shift poly)^[n] ((r.setWidth n).setWidth w) ^^^ r >>> n := by rw [shiftsXor,high]

theorem ofBitsGet (bits : List Bool) (i : Nat) :
    (ofBits bits : BitVec w).getLsbD i = (decide (i < w) && bits.getD i false) := by
  induction bits generalizing i with
  | nil => simp [ofBits]
  | cons b rest ih =>
    rw [ofBits,BitVec.getLsbD_xor,bitWordGet,BitVec.getLsbD_shiftLeft,ih]
    cases i with
    | zero => simp [Bool.and_comm]
    | succ i => by_cases inside : i + 1 < w <;> simp [inside,show ¬ i + 1 < 1 by omega]; omega

theorem bitsLength {n : Nat} (x : BitVec n) : (bitsOf x).length = n := by rw [bitsOf,List.length_map,List.length_range]

theorem ofBitsOf {n : Nat} (x : BitVec n) : (ofBits (bitsOf x) : BitVec w) = x.setWidth w := by
  apply BitVec.eq_of_getLsbD_eq
  intro i inside
  rw [ofBitsGet,BitVec.getLsbD_setWidth,bitsOf,List.getD_eq_getElem?_getD,List.getElem?_map]
  by_cases small : i < n
  · simp [List.getElem?_range small]
  · simp [small,BitVec.getLsbD_of_ge x i (by omega)]

theorem ofBitsInjective {a b : List Bool} (same : a.length = b.length) (fits : a.length ≤ w)
    (equal : (ofBits a : BitVec w) = ofBits b) : a = b := by
  refine List.ext_getElem same fun i left right => ?_
  have bit := congrArg (fun x => BitVec.getLsbD x i) equal
  simp only [ofBitsGet,List.getD_eq_getElem?_getD,List.getElem?_eq_getElem left,List.getElem?_eq_getElem right] at bit
  simpa [show i < w by omega] using bit

theorem feedAppend (r : BitVec w) (a b : List Bool) : feed poly r (a ++ b) = feed poly (feed poly r a) b :=
  List.foldl_append

/-- As long as they fit, the bits may be put into the register before it is shifted. -/
theorem feedWord {bits : List Bool} (fits : bits.length ≤ w) (r : BitVec w) :
    feed poly r bits = (shift poly)^[bits.length] (r ^^^ ofBits bits) := by
  induction bits generalizing r with
  | nil => simp [feed,ofBits]
  | cons b rest ih =>
    rw [List.length_cons] at fits
    have room : (ofBits rest : BitVec w).getLsbD (w - 1) = false := by
      rw [ofBitsGet,List.getD_eq_getElem?_getD,List.getElem?_eq_none (by omega),Option.getD_none,Bool.and_false]
    have head : shift poly (r ^^^ ofBits (b :: rest)) = feedBit poly r b ^^^ ofBits rest := by
      rw [ofBits,← BitVec.xor_assoc,shiftXor,shiftRaised room]
      rfl
    rw [List.length_cons,Function.iterate_succ_apply,head,← ih (by omega)]
    rfl

/-- The register of the mirror. -/
theorem feedMirror (r : BitVec w) (b : Bool) : (feedLeft poly r b).reverse = feedBit poly.reverse r.reverse b := by
  apply BitVec.eq_of_getLsbD_eq
  intro i inside
  have first : (r.reverse ^^^ bitWord b).getLsbD 0 = (r.msb ^^ b) := by
    rw [BitVec.getLsbD_xor,BitVec.getLsbD_reverse,bitWordGet,BitVec.msb]
    simp [show 0 < w by omega]
  have other : (r.reverse ^^^ bitWord b).getLsbD (1 + i) = r.getMsbD (i + 1) := by
    rw [BitVec.getLsbD_xor,BitVec.getLsbD_reverse,bitWordGet,Nat.add_comm]
    simp
  rw [BitVec.getLsbD_reverse,feedLeft,BitVec.getMsbD_xor,BitVec.getMsbD_shiftLeft,feedBit,shift,BitVec.getLsbD_xor,
    BitVec.getLsbD_ushiftRight,other,first]
  split
  · rw [BitVec.getLsbD_reverse]
  · simp

section injective
variable (top : poly.getLsbD (w - 1) = true)
include top

theorem shiftInjective : Function.Injective (shift poly) := by
  intro a b same
  have some : 0 < w := by
    by_contra none
    rw [BitVec.getLsbD_of_ge poly _ (by omega)] at top
    contradiction
  have high (x : BitVec w) : (shift poly x).getLsbD (w - 1) = x.getLsbD 0 := by
    rw [shift,BitVec.getLsbD_xor,BitVec.getLsbD_ushiftRight,BitVec.getLsbD_of_ge x _ (by omega),Bool.false_xor]
    cases x.getLsbD 0 <;> simp [top]
  have lowest : a.getLsbD 0 = b.getLsbD 0 := by rw [← high,← high,same]
  rw [shift,shift,lowest,BitVec.xor_left_inj] at same
  apply BitVec.eq_of_getLsbD_eq
  intro i inside
  cases i with
  | zero => exact lowest
  | succ i =>
    have bit := congrArg (fun x => BitVec.getLsbD x i) same
    simpa only [BitVec.getLsbD_ushiftRight,Nat.add_comm 1] using bit

theorem shiftsInjective (n : Nat) : Function.Injective (shift poly)^[n] := (shiftInjective top).iterate n

theorem feedInjective (bits : List Bool) : Function.Injective fun r => feed poly r bits := by
  induction bits with
  | nil => exact fun _ _ same => same
  | cons b rest ih =>
    intro r s same
    exact (BitVec.xor_left_inj _).mp (shiftInjective top (ih same))

/-- Two messages that differ in no more bits than the register has, side by side, leave it different. -/
theorem burstApart (r : BitVec w) {first a b last : List Bool} (same : a.length = b.length) (fits : a.length ≤ w)
    (differ : a ≠ b) : feed poly r (first ++ a ++ last) ≠ feed poly r (first ++ b ++ last) := by
  intro equal
  rw [feedAppend,feedAppend,feedAppend,feedAppend] at equal
  have before := feedInjective top last equal
  generalize feed poly r first = s at before
  simp only [feedWord fits,feedWord (Nat.le_trans (Nat.le_of_eq same.symm) fits),same] at before
  exact differ (ofBitsInjective same fits ((BitVec.xor_right_inj _).mp (shiftsInjective top _ before)))

/-- A register is cleared by its own bits, and by no others. -/
theorem feedCleared {bits : List Bool} (whole : bits.length = w) (r : BitVec w) :
    feed poly r bits = 0#w ↔ ofBits bits = r := by
  rw [feedWord (Nat.le_of_eq whole)]
  constructor
  · intro cleared
    have zero := shiftsInjective top _ (cleared.trans (shiftsZero _).symm)
    exact (BitVec.xor_eq_zero_iff.mp zero).symm
  · rintro rfl
    rw [BitVec.xor_self,shiftsZero]

end injective

end

end HpuCache.ShiftRegister
