import Mathlib.Data.Finset.Card
import Mathlib.Data.Fintype.Basic
import Mathlib.Logic.Function.Basic

/-! Bitmaps as arrays of bytes, with the test, set and clear operations by shift and mask.
A bitmap is determined by its bits, and the number of its bits moves by one at a change. -/
namespace HpuCache.BitArray

abbrev Bitmap (n : Nat) := Fin ((n + 7) / 8) → BitVec 8

variable {n : Nat}

def byteOf (pos : Fin n) : Fin ((n + 7) / 8) := ⟨pos.val / 8,by omega⟩

def maskOf (pos : Fin n) : BitVec 8 := 1#8 <<< (pos.val % 8)

def bitmapTestBit (bitmap : Bitmap n) (pos : Fin n) : Bool := bitmap (byteOf pos) &&& maskOf pos ≠ 0

def bitmapSetBit (bitmap : Bitmap n) (pos : Fin n) : Bitmap n :=
  Function.update bitmap (byteOf pos) (bitmap (byteOf pos) ||| maskOf pos)

def bitmapClearBit (bitmap : Bitmap n) (pos : Fin n) : Bitmap n :=
  Function.update bitmap (byteOf pos) (bitmap (byteOf pos) &&& ~~~ maskOf pos)

def emptyBitmap : Bitmap n := fun _ => 0

theorem bitInside (pos : Fin n) : pos.val % 8 < 8 := Nat.mod_lt _ (by decide)

theorem maskBit (pos : Fin n) (bit : Nat) :
    (maskOf pos).getLsbD bit = decide (bit = pos.val % 8) := by
  have bound := bitInside pos
  rw [maskOf,← BitVec.twoPow_eq,BitVec.getLsbD_twoPow]
  simp [bound,eq_comm]

theorem testBit (bitmap : Bitmap n) (pos : Fin n) :
    bitmapTestBit bitmap pos = (bitmap (byteOf pos)).getLsbD (pos.val % 8) := by
  rw [bitmapTestBit,Bool.eq_iff_iff,decide_eq_true_iff]
  refine ⟨fun nonzero => ?_,fun present zero => ?_⟩
  · by_contra unset
    refine nonzero (BitVec.eq_of_getLsbD_eq fun bit _ => ?_)
    rw [BitVec.getLsbD_and,maskBit]
    by_cases same : bit = pos.val % 8
    · subst same
      simp [Bool.eq_false_iff.mpr unset]
    · simp [same]
  · have bit := congrArg (fun byte => byte.getLsbD (pos.val % 8)) zero
    rw [BitVec.getLsbD_and,maskBit,present] at bit
    simp at bit

theorem posIff (pos other : Fin n) :
    other = pos ↔ byteOf other = byteOf pos ∧ other.val % 8 = pos.val % 8 := by
  simp only [byteOf,Fin.ext_iff]
  omega

@[simp] theorem testSet (bitmap : Bitmap n) (pos other : Fin n) :
    bitmapTestBit (bitmapSetBit bitmap pos) other = (bitmapTestBit bitmap other || decide (other = pos)) := by
  simp only [testBit,bitmapSetBit,posIff pos other]
  by_cases same : byteOf other = byteOf pos
  · rw [same,Function.update_self,BitVec.getLsbD_or,maskBit]
    simp
  · rw [Function.update_of_ne same]
    simp [same]

@[simp] theorem testClear (bitmap : Bitmap n) (pos other : Fin n) :
    bitmapTestBit (bitmapClearBit bitmap pos) other = (bitmapTestBit bitmap other && !decide (other = pos)) := by
  simp only [testBit,bitmapClearBit,posIff pos other]
  by_cases same : byteOf other = byteOf pos
  · rw [same,Function.update_self,BitVec.getLsbD_and,BitVec.getLsbD_not,maskBit]
    simp [bitInside other]
  · rw [Function.update_of_ne same]
    simp [same]

@[simp] theorem testEmpty (pos : Fin n) : bitmapTestBit (emptyBitmap : Bitmap n) pos = false := by
  simp [testBit,emptyBitmap]

theorem bitmapExt (full : n % 8 = 0) {left right : Bitmap n}
    (same : ∀ pos, bitmapTestBit left pos = bitmapTestBit right pos) : left = right := by
  funext byte
  refine BitVec.eq_of_getLsbD_eq fun bit inside => ?_
  have bound : byte.val * 8 + bit < n := by
    have below := byte.isLt
    omega
  have shown := same ⟨byte.val * 8 + bit,bound⟩
  have atByte : byteOf ⟨byte.val * 8 + bit,bound⟩ = byte := Fin.ext (by simp only [byteOf]; omega)
  have atBit : (byte.val * 8 + bit) % 8 = bit := by omega
  simpa only [testBit,atByte,atBit] using shown

def bitsOf (bitmap : Bitmap n) : Finset (Fin n) := Finset.univ.filter fun pos => bitmapTestBit bitmap pos = true

@[simp] theorem memBits {bitmap : Bitmap n} {pos : Fin n} : pos ∈ bitsOf bitmap ↔ bitmapTestBit bitmap pos = true := by
  simp [bitsOf]

theorem bitsSet (bitmap : Bitmap n) (pos : Fin n) : bitsOf (bitmapSetBit bitmap pos) = insert pos (bitsOf bitmap) := by
  ext other
  simp [or_comm]

theorem bitsClear (bitmap : Bitmap n) (pos : Fin n) :
    bitsOf (bitmapClearBit bitmap pos) = (bitsOf bitmap).erase pos := by
  ext other
  simp [and_comm]

theorem cardSet {bitmap : Bitmap n} {pos : Fin n} (unset : bitmapTestBit bitmap pos = false) :
    (bitsOf (bitmapSetBit bitmap pos)).card = (bitsOf bitmap).card + 1 := by
  rw [bitsSet]
  exact Finset.card_insert_of_notMem (by simp [unset])

theorem cardClear {bitmap : Bitmap n} {pos : Fin n} (present : bitmapTestBit bitmap pos = true) :
    (bitsOf (bitmapClearBit bitmap pos)).card + 1 = (bitsOf bitmap).card := by
  rw [bitsClear]
  exact Finset.card_erase_add_one (by simp [present])

theorem bitsEmpty : bitsOf (emptyBitmap : Bitmap n) = ∅ := by
  ext pos
  simp

end HpuCache.BitArray
