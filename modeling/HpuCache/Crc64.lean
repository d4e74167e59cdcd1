import Mathlib.Data.List.GetD
import HpuCache.ByteText
import HpuCache.ShiftRegister

/-! The checksum of dumped values. `_crc64` runs over the bits of the data; `crc64` takes a byte
at a time from a table up to the next aligned address, then eight bytes at a time from eight
tables, and what is left byte by byte, on machines of either byte order. -/
namespace HpuCache.Crc64
open ByteText ShiftRegister

inductive ByteOrder where
  | little
  | big
  deriving DecidableEq, Repr

def poly : BitVec 64 := 0xad93d23594c935a9#64

def reflectLoop : Nat → BitVec 64 → BitVec 64 → BitVec 64
  | 0, _, ret => ret
  | n + 1, data, ret => reflectLoop n (data >>> 1) (ret <<< 1 ||| (data >>> 1 &&& 1#64))

def crcReflect (data : BitVec 64) (dataLen : Nat) : BitVec 64 := reflectLoop (dataLen - 1) data (data &&& 1#64)

def byteBits (c : UInt8) : List Bool := bitsOf c.toBitVec

/-- The checksum bit after bit; the bits of a byte are taken from the lowest one on. -/
def _crc64 (crc : BitVec 64) (data : Bytes) : BitVec 64 :=
  crcReflect (data.foldl (fun crc c => (byteBits c).foldl (feedLeft poly) crc) crc) 64

def lowByte (x : BitVec 64) : UInt8 := ⟨x.setWidth 8⟩

/-- Eight tables, one entry for each byte. -/
abbrev Tables := Nat → UInt8 → BitVec 64

def crcspeed64littleInit (crcfn : BitVec 64 → Bytes → BitVec 64) : Tables
  | 0, n => crcfn 0#64 [n]
  | k + 1, n =>
    let crc := crcspeed64littleInit crcfn k n
    crcfn 0#64 [lowByte crc] ^^^ crc >>> 8

/-- The bytes of a word in the other order. -/
def rev8 (a : BitVec 64) : BitVec 64 :=
  ofBits ((List.range 64).map fun i => a.getLsbD (8 * (7 - i / 8) + i % 8))

def crcspeed64bigInit (crcfn : BitVec 64 → Bytes → BitVec 64) : Tables :=
  fun k n => rev8 (crcspeed64littleInit crcfn k n)

/-- What a machine reads at the address of these eight bytes. -/
def readWord (order : ByteOrder) (bytes : Bytes) : BitVec 64 :=
  match order with
  | .little => ofBits (bytes.flatMap byteBits)
  | .big => rev8 (ofBits (bytes.flatMap byteBits))

section loops
variable (step : BitVec 64 → UInt8 → BitVec 64) (word : BitVec 64 → Bytes → BitVec 64)

/-- Single bytes until the address is a multiple of eight. -/
def alignLoop : Nat → BitVec 64 → Bytes → BitVec 64 × Bytes
  | _, crc, [] => (crc,[])
  | next, crc, c :: rest => if next % 8 = 0 then (crc,c :: rest) else alignLoop (next + 1) (step crc c) rest

def wordLoop : BitVec 64 → Bytes → BitVec 64 × Bytes
  | crc, c0 :: c1 :: c2 :: c3 :: c4 :: c5 :: c6 :: c7 :: rest => wordLoop (word crc [c0,c1,c2,c3,c4,c5,c6,c7]) rest
  | crc, rest => (crc,rest)

def speedLoops (next : Nat) (crc : BitVec 64) (buf : Bytes) : BitVec 64 :=
  let aligned := alignLoop step next crc buf
  let words := wordLoop word aligned.1 aligned.2
  words.2.foldl step words.1

end loops

def littleByte (table : Tables) (crc : BitVec 64) (c : UInt8) : BitVec 64 :=
  table 0 (lowByte (crc ^^^ c.toBitVec.setWidth 64)) ^^^ crc >>> 8

def littleWord (table : Tables) (crc : BitVec 64) (next : Bytes) : BitVec 64 :=
  let crc := crc ^^^ readWord .little next
  table 7 (lowByte crc) ^^^ table 6 (lowByte (crc >>> 8)) ^^^ table 5 (lowByte (crc >>> 16)) ^^^
    table 4 (lowByte (crc >>> 24)) ^^^ table 3 (lowByte (crc >>> 32)) ^^^ table 2 (lowByte (crc >>> 40)) ^^^
    table 1 (lowByte (crc >>> 48)) ^^^ table 0 (lowByte (crc >>> 56))

def crcspeed64little (table : Tables) (next : Nat) (crc : BitVec 64) (buf : Bytes) : BitVec 64 :=
  speedLoops (littleByte table) (littleWord table) next crc buf

def bigByte (table : Tables) (crc : BitVec 64) (c : UInt8) : BitVec 64 :=
  table 0 (lowByte (crc >>> 56) ^^^ c) ^^^ crc <<< 8

def bigWord (table : Tables) (crc : BitVec 64) (next : Bytes) : BitVec 64 :=
  let crc := crc ^^^ readWord .big next
  table 0 (lowByte crc) ^^^ table 1 (lowByte (crc >>> 8)) ^^^ table 2 (lowByte (crc >>> 16)) ^^^
    table 3 (lowByte (crc >>> 24)) ^^^ table 4 (lowByte (crc >>> 32)) ^^^ table 5 (lowByte (crc >>> 40)) ^^^
    table 6 (lowByte (crc >>> 48)) ^^^ table 7 (lowByte (crc >>> 56))

def crcspeed64big (table : Tables) (next : Nat) (crc : BitVec 64) (buf : Bytes) : BitVec 64 :=
  rev8 (speedLoops (bigByte table) (bigWord table) next (rev8 crc) buf)

def crcspeed64nativeInit : ByteOrder → Tables
  | .little => crcspeed64littleInit _crc64
  | .big => crcspeed64bigInit _crc64

/-- `next` is the address of the data, which only decides where the words begin. -/
def crc64 (order : ByteOrder) (next : Nat) (crc : BitVec 64) (s : Bytes) : BitVec 64 :=
  match order with
  | .little => crcspeed64little (crcspeed64nativeInit .little) next crc s
  | .big => crcspeed64big (crcspeed64nativeInit .big) next crc s

/-- The bytes of a number in memory. -/
def wordBytes : Nat → BitVec 64 → Bytes
  | 0, _ => []
  | n + 1, x => lowByte x :: wordBytes n (x >>> 8)

def memoryBytes (order : ByteOrder) (x : BitVec 64) : Bytes :=
  match order with
  | .little => wordBytes 8 x
  | .big => (wordBytes 8 x).reverse

/-- On the bytes at the address it is given. -/
def memrev64ifbe (order : ByteOrder) (p : Bytes) : Bytes :=
  match order with
  | .little => p
  | .big => p.reverse

theorem reflectLoopGet (n : Nat) (data ret : BitVec 64) {i : Nat} (inside : i < 64) :
    (reflectLoop n data ret).getLsbD i = if i < n then data.getLsbD (n - i) else ret.getLsbD (i - n) := by
  induction n generalizing data ret with
  | zero => simp [reflectLoop]
  | succ n ih =>
    rw [reflectLoop,ih]
    by_cases low : i < n
    · rw [if_pos low,if_pos (by omega),BitVec.getLsbD_ushiftRight,show 1 + (n - i) = n + 1 - i by omega]
    · rw [if_neg low,BitVec.getLsbD_or,BitVec.getLsbD_and,BitVec.getLsbD_one,BitVec.getLsbD_shiftLeft,
        BitVec.getLsbD_ushiftRight]
      by_cases next : i = n
      · subst next
        simp
      · rw [if_neg (by omega)]
        simp [show ¬ i - n < 1 by omega,show i - n ≠ 0 by omega,show i - n < 64 by omega,show i - (n + 1) = i - n - 1 by omega]

theorem reflected (data : BitVec 64) : crcReflect data 64 = data.reverse := by
  apply BitVec.eq_of_getLsbD_eq
  intro i inside
  rw [crcReflect,reflectLoopGet _ _ _ inside,BitVec.getLsbD_reverse,BitVec.getMsbD]
  by_cases low : i < 63
  · simp [low,inside]
  · obtain rfl : i = 63 := by omega
    simp

/-- The polynomial as the tables have it: its lowest power on top. -/
abbrev turned : BitVec 64 := poly.reverse

theorem turnedTop : turned.getLsbD 63 = true := by decide +kernel

def bits (data : Bytes) : List Bool := data.flatMap byteBits

theorem bitsAppend (a b : Bytes) : bits (a ++ b) = bits a ++ bits b := List.flatMap_append

theorem bitsCons (c : UInt8) (rest : Bytes) : bits (c :: rest) = byteBits c ++ bits rest := List.flatMap_cons

theorem byteBitsLength (c : UInt8) : (byteBits c).length = 8 := bitsLength _

theorem bitsLen (data : Bytes) : (bits data).length = 8 * data.length := by
  induction data with
  | nil => rfl
  | cons c rest ih => rw [bitsCons,List.length_append,byteBitsLength,ih,List.length_cons]; omega

theorem mirrorRun (crc : BitVec 64) (run : List Bool) :
    (run.foldl (feedLeft poly) crc).reverse = feed turned crc.reverse run := by
  induction run generalizing crc with
  | nil => rfl
  | cons b rest ih => rw [List.foldl_cons,ih,feedMirror]; rfl

theorem crcFeeds (crc : BitVec 64) (data : Bytes) : _crc64 crc data = feed turned crc.reverse (bits data) := by
  rw [_crc64,reflected]
  induction data generalizing crc with
  | nil => rfl
  | cons c rest ih => rw [List.foldl_cons,ih,mirrorRun,bitsCons,feedAppend]

def byteWord (c : UInt8) : BitVec 64 := c.toBitVec.setWidth 64

theorem byteFed (crc : BitVec 64) (c : UInt8) :
    feed turned crc (byteBits c) = (shift turned)^[8] (crc ^^^ byteWord c) := by
  rw [feedWord (by rw [byteBitsLength]; omega),byteBitsLength,byteBits,ofBitsOf]
  rfl

theorem crcOfByte (c : UInt8) : _crc64 0#64 [c] = (shift turned)^[8] (byteWord c) := by
  have alone : bits [c] = byteBits c := by rw [bitsCons,bits,List.flatMap_nil,List.append_nil]
  rw [crcFeeds,alone,byteFed,show (0#64).reverse = 0#64 by decide +kernel,BitVec.zero_xor]

/-- The tables hold what one byte leaves after one to eight bytes. -/
theorem tableShifts (k : Nat) (n : UInt8) :
    crcspeed64littleInit _crc64 k n = (shift turned)^[8 * (k + 1)] (byteWord n) := by
  induction k with
  | zero => exact crcOfByte n
  | succ k ih =>
    rw [crcspeed64littleInit,ih,crcOfByte,show 8 * (k + 1 + 1) = 8 + 8 * (k + 1) by omega,Function.iterate_add_apply]
    exact (shiftsSplit 8 _).symm

theorem lowByteXor (a b : BitVec 64) : lowByte (a ^^^ b) = lowByte a ^^^ lowByte b := by
  rw [lowByte,BitVec.setWidth_xor]
  rfl

theorem lowByteWord (c : UInt8) : lowByte (byteWord c) = c := by
  rw [lowByte,byteWord,BitVec.setWidth_setWidth_of_le _ (by omega),BitVec.setWidth_eq]

theorem byteWordShift (c : UInt8) : byteWord c >>> 8 = 0#64 := by
  apply BitVec.eq_of_getLsbD_eq
  intro i inside
  rw [BitVec.getLsbD_ushiftRight,byteWord,BitVec.getLsbD_setWidth,BitVec.getLsbD_of_ge c.toBitVec _ (by omega)]
  simp

/-- One byte of the register through a table, the others moved down. -/
theorem tableFirst (k : Nat) (crc : BitVec 64) :
    (shift turned)^[8 * (k + 1)] crc = crcspeed64littleInit _crc64 k (lowByte crc) ^^^ (shift turned)^[8 * k] (crc >>> 8) := by
  rw [tableShifts,show 8 * (k + 1) = 8 * k + 8 by omega,Function.iterate_add_apply,Function.iterate_add_apply,
    shiftsSplit 8 crc,shiftsXor]
  rfl

theorem littleByteFeeds (crc : BitVec 64) (c : UInt8) :
    littleByte (crcspeed64littleInit _crc64) crc c = feed turned crc (byteBits c) := by
  have first := tableFirst 0 (crc ^^^ byteWord c)
  rw [BitVec.ushiftRight_xor_distrib,byteWordShift,BitVec.xor_zero] at first
  rw [byteFed]
  exact first.symm

/-- Eight bytes of the register through the eight tables. -/
theorem tablesWhole (crc : BitVec 64) (table : Tables) (filled : table = crcspeed64littleInit _crc64) :
    table 7 (lowByte crc) ^^^ table 6 (lowByte (crc >>> 8)) ^^^ table 5 (lowByte (crc >>> 16)) ^^^
      table 4 (lowByte (crc >>> 24)) ^^^ table 3 (lowByte (crc >>> 32)) ^^^ table 2 (lowByte (crc >>> 40)) ^^^
      table 1 (lowByte (crc >>> 48)) ^^^ table 0 (lowByte (crc >>> 56)) = (shift turned)^[64] crc := by
  have gone : crc >>> 64 = 0#64 := by
    rw [BitVec.ushiftRight_eq_zero]
    omega
  rw [tableFirst 7,tableFirst 6,tableFirst 5,tableFirst 4,tableFirst 3,tableFirst 2,tableFirst 1,tableFirst 0]
  simp only [← BitVec.shiftRight_add,Nat.reduceAdd,gone,shiftsZero,BitVec.xor_zero,← filled,BitVec.xor_assoc]

theorem littleWordFeeds (crc : BitVec 64) {next : Bytes} (eight : next.length = 8) :
    littleWord (crcspeed64littleInit _crc64) crc next = feed turned crc (bits next) := by
  have long : (bits next).length = 64 := by rw [bitsLen,eight]
  rw [feedWord (Nat.le_of_eq long),long]
  exact tablesWhole _ _ rfl

section loops
variable {step : BitVec 64 → UInt8 → BitVec 64} {word : BitVec 64 → Bytes → BitVec 64} {view : BitVec 64 → BitVec 64}
  (stepFeeds : ∀ crc c, view (step crc c) = feed turned (view crc) (byteBits c))
  (wordFeeds : ∀ crc next, next.length = 8 → view (word crc next) = feed turned (view crc) (bits next))
include stepFeeds

theorem stepsFeed (crc : BitVec 64) (data : Bytes) : view (data.foldl step crc) = feed turned (view crc) (bits data) := by
  induction data generalizing crc with
  | nil => rfl
  | cons c rest ih => rw [List.foldl_cons,ih,stepFeeds,bitsCons,feedAppend]

theorem alignFeeds (next : Nat) (crc : BitVec 64) (data : Bytes) :
    feed turned (view (alignLoop step next crc data).1) (bits (alignLoop step next crc data).2) =
      feed turned (view crc) (bits data) := by
  induction data generalizing next crc with
  | nil => rfl
  | cons c rest ih =>
    rw [alignLoop]
    split
    · rfl
    · rw [ih,stepFeeds,bitsCons,feedAppend]

include wordFeeds

omit stepFeeds in
theorem wordsFeed (crc : BitVec 64) (data : Bytes) :
    feed turned (view (wordLoop word crc data).1) (bits (wordLoop word crc data).2) = feed turned (view crc) (bits data) := by
  induction crc, data using wordLoop.induct word with
  | case1 crc c0 c1 c2 c3 c4 c5 c6 c7 rest ih =>
    rw [wordLoop,ih,wordFeeds _ _ rfl,← feedAppend,← bitsAppend]
    rfl
  | case2 crc data short => rw [wordLoop]; exact short

theorem loopsFeed (next : Nat) (crc : BitVec 64) (data : Bytes) :
    view (speedLoops step word next crc data) = feed turned (view crc) (bits data) := by
  rw [speedLoops,stepsFeed stepFeeds,wordsFeed wordFeeds,alignFeeds stepFeeds]

end loops

theorem rev8Get (a : BitVec 64) {i : Nat} (inside : i < 64) : (rev8 a).getLsbD i = a.getLsbD (8 * (7 - i / 8) + i % 8) := by
  rw [rev8,ofBitsGet,List.getD_eq_getElem?_getD,List.getElem?_map,List.getElem?_range inside]
  simp [inside]

theorem rev8Twice (a : BitVec 64) : rev8 (rev8 a) = a := by
  apply BitVec.eq_of_getLsbD_eq
  intro i inside
  rw [rev8Get _ inside,rev8Get _ (by omega)]
  exact congrArg a.getLsbD (by omega)

theorem rev8Xor (a b : BitVec 64) : rev8 (a ^^^ b) = rev8 a ^^^ rev8 b := by
  apply BitVec.eq_of_getLsbD_eq
  intro i inside
  rw [rev8Get _ inside,BitVec.getLsbD_xor,BitVec.getLsbD_xor,rev8Get _ inside,rev8Get _ inside]

theorem rev8Shift (a : BitVec 64) : rev8 (a <<< 8) = rev8 a >>> 8 := by
  apply BitVec.eq_of_getLsbD_eq
  intro i inside
  rw [rev8Get _ inside,BitVec.getLsbD_shiftLeft,BitVec.getLsbD_ushiftRight]
  by_cases top : i < 56
  · rw [rev8Get _ (by omega),show 8 * (7 - i / 8) + i % 8 - 8 = 8 * (7 - (8 + i) / 8) + (8 + i) % 8 by omega]
    simp [show 8 * (7 - i / 8) + i % 8 < 64 by omega,show ¬ 8 * (7 - i / 8) + i % 8 < 8 by omega]
  · rw [BitVec.getLsbD_of_ge (rev8 a) _ (by omega)]
    simp [show 8 * (7 - i / 8) + i % 8 < 8 by omega]

theorem lowByteMirror (a : BitVec 64) {n : Nat} (few : n ≤ 56) (whole : n % 8 = 0) :
    lowByte (rev8 a >>> n) = lowByte (a >>> (56 - n)) := by
  have same : (rev8 a >>> n).setWidth 8 = (a >>> (56 - n)).setWidth 8 := by
    apply BitVec.eq_of_getLsbD_eq
    intro i inside
    rw [BitVec.getLsbD_setWidth,BitVec.getLsbD_setWidth,BitVec.getLsbD_ushiftRight,BitVec.getLsbD_ushiftRight,
      rev8Get _ (by omega),show 8 * (7 - (n + i) / 8) + (n + i) % 8 = 56 - n + i by omega]
  rw [lowByte,lowByte,same]

theorem lastByteMirror (a : BitVec 64) : lowByte (rev8 a) = lowByte (a >>> 56) :=
  lowByteMirror a (Nat.zero_le 56) rfl

/-- On the other machine the register has its bytes in the other order. -/
theorem bigByteMirror (crc : BitVec 64) (c : UInt8) :
    rev8 (bigByte (crcspeed64bigInit _crc64) crc c) = littleByte (crcspeed64littleInit _crc64) (rev8 crc) c := by
  rw [bigByte,rev8Xor,rev8Shift,crcspeed64bigInit,rev8Twice,littleByte,lowByteXor,lastByteMirror]
  exact congrArg (fun b => crcspeed64littleInit _crc64 0 (lowByte (crc >>> 56) ^^^ b) ^^^ rev8 crc >>> 8)
    (lowByteWord c).symm

theorem xorBackwards (a b c d e f g h : BitVec 64) :
    a ^^^ b ^^^ c ^^^ d ^^^ e ^^^ f ^^^ g ^^^ h = h ^^^ g ^^^ f ^^^ e ^^^ d ^^^ c ^^^ b ^^^ a := by ac_rfl

theorem bigWordMirror (crc : BitVec 64) (next : Bytes) :
    rev8 (bigWord (crcspeed64bigInit _crc64) crc next) = littleWord (crcspeed64littleInit _crc64) (rev8 crc) next := by
  have start : rev8 crc ^^^ readWord .little next = rev8 (crc ^^^ readWord .big next) := by
    rw [rev8Xor,readWord,readWord,rev8Twice]
  rw [bigWord,littleWord,start]
  generalize crc ^^^ readWord .big next = x
  simp (disch := decide) only [rev8Xor,crcspeed64bigInit,rev8Twice,lowByteMirror,lastByteMirror,Nat.reduceSub]
  exact xorBackwards _ _ _ _ _ _ _ _

theorem crcspeedFeeds (order : ByteOrder) (next : Nat) (crc : BitVec 64) (s : Bytes) :
    crc64 order next crc s = feed turned crc (bits s) := by
  cases order with
  | little =>
    exact @loopsFeed _ _ id littleByteFeeds (fun crc _ eight => littleWordFeeds crc eight) next crc s
  | big =>
    have bytes (crc : BitVec 64) (c : UInt8) :
        rev8 (bigByte (crcspeed64bigInit _crc64) crc c) = feed turned (rev8 crc) (byteBits c) := by
      rw [bigByteMirror,littleByteFeeds]
    have words (crc : BitVec 64) (next : Bytes) (eight : next.length = 8) :
        rev8 (bigWord (crcspeed64bigInit _crc64) crc next) = feed turned (rev8 crc) (bits next) := by
      rw [bigWordMirror,littleWordFeeds _ eight]
    rw [crc64,crcspeed64nativeInit,crcspeed64big,loopsFeed bytes words,rev8Twice]

/-- However the data come in pieces, on any machine and wherever the pieces lie, the tables
leave what the bits leave. -/
theorem checksumByParts (order : ByteOrder) (pieces : List (Nat × Bytes)) :
    pieces.foldl (fun crc piece => crc64 order piece.1 crc piece.2) 0#64 = _crc64 0#64 (pieces.flatMap Prod.snd) := by
  have parts (crc : BitVec 64) :
      pieces.foldl (fun crc piece => crc64 order piece.1 crc piece.2) crc = feed turned crc (bits (pieces.flatMap Prod.snd)) := by
    induction pieces generalizing crc with
    | nil => rfl
    | cons piece rest ih => rw [List.foldl_cons,ih,crcspeedFeeds,← feedAppend,← bitsAppend,List.flatMap_cons]
  rw [parts,crcFeeds,show (0#64).reverse = 0#64 by decide +kernel]

example : _crc64 0#64 [49,50,51,52,53,54,55,56,57] = 0xe9c6d914c4b8d9ca#64 := by decide +kernel

section stored

theorem byteBitsInjective {c d : UInt8} (same : byteBits c = byteBits d) : c = d := by
  have words := congrArg (ofBits (w := 8)) same
  rw [byteBits,byteBits,ofBitsOf,ofBitsOf,BitVec.setWidth_eq,BitVec.setWidth_eq] at words
  exact UInt8.eq_of_toBitVec_eq words

theorem bitsInjective {a b : Bytes} (same : bits a = bits b) : a = b := by
  induction a generalizing b with
  | nil =>
    have short := congrArg List.length same
    rw [bitsLen,bitsLen,List.length_nil] at short
    exact (List.length_eq_zero_iff.mp (by omega)).symm
  | cons c rest ih =>
    cases b with
    | nil =>
      have short := congrArg List.length same
      rw [bitsLen,bitsLen,List.length_cons,List.length_nil] at short
      omega
    | cons d more =>
      rw [bitsCons,bitsCons] at same
      obtain ⟨first,later⟩ := List.append_inj same (by rw [byteBitsLength,byteBitsLength])
      rw [byteBitsInjective first,ih later]

theorem bitsGet (data : Bytes) (i : Nat) : (bits data).getD i false = (data.getD (i / 8) 0).toBitVec.getLsbD (i % 8) := by
  induction data generalizing i with
  | nil => simp [bits]
  | cons c rest ih =>
    rw [bitsCons]
    by_cases low : i < 8
    · have first : i / 8 = 0 := by omega
      have place : i % 8 = i := by omega
      rw [List.getD_append _ _ _ _ (by rw [byteBitsLength]; exact low),first,place,byteBits,bitsOf,
        List.getD_eq_getElem?_getD,List.getElem?_map,List.getElem?_range low]
      rfl
    · obtain ⟨k,rfl⟩ : ∃ k, i = k + 8 := ⟨i - 8,by omega⟩
      rw [List.getD_append_right _ _ _ _ (by rw [byteBitsLength]; omega),byteBitsLength,Nat.add_sub_cancel,ih,
        show (k + 8) / 8 = k / 8 + 1 by omega,show (k + 8) % 8 = k % 8 by omega,List.getD_cons_succ]

theorem wordBytesLength (n : Nat) (x : BitVec 64) : (wordBytes n x).length = n := by
  induction n generalizing x with
  | zero => rfl
  | succ n ih => rw [wordBytes,List.length_cons,ih]

theorem wordBytesGet {n : Nat} (x : BitVec 64) {k : Nat} (inside : k < n) : (wordBytes n x).getD k 0 = lowByte (x >>> (8 * k)) := by
  induction n generalizing x k with
  | zero => omega
  | succ n ih =>
    cases k with
    | zero => rfl
    | succ k => rw [wordBytes,List.getD_cons_succ,ih _ (by omega),← BitVec.shiftRight_add,show 8 + 8 * k = 8 * (k + 1) by omega]

theorem wordBytesRead (x : BitVec 64) : (ofBits (bits (wordBytes 8 x)) : BitVec 64) = x := by
  apply BitVec.eq_of_getLsbD_eq
  intro i inside
  rw [ofBitsGet,bitsGet,wordBytesGet x (by omega),lowByte,BitVec.getLsbD_setWidth,BitVec.getLsbD_ushiftRight,
    show 8 * (i / 8) + i % 8 = i by omega]
  simp [inside,Nat.mod_lt]

theorem wordBytesIff {l : Bytes} (eight : l.length = 8) (x : BitVec 64) : wordBytes 8 x = l ↔ ofBits (bits l) = x := by
  constructor
  · rintro rfl
    exact wordBytesRead x
  · rintro rfl
    apply bitsInjective
    have long (l : Bytes) (eight : l.length = 8) : (bits l).length = 64 := by rw [bitsLen,eight]
    have left := long _ (wordBytesLength 8 (ofBits (bits l)))
    exact ofBitsInjective (left.trans (long l eight).symm) (Nat.le_of_eq left) (wordBytesRead _)

/-- What is stored has the lowest byte first on any machine. -/
theorem storedBytes (order : ByteOrder) (x : BitVec 64) : memrev64ifbe order (memoryBytes order x) = wordBytes 8 x := by
  cases order with
  | little => rfl
  | big => exact List.reverse_reverse _

theorem storedRead (order : ByteOrder) {p : Bytes} (eight : p.length = 8) :
    readWord order (memrev64ifbe order p) = ofBits (bits p) := by
  cases order with
  | little => rfl
  | big =>
    apply BitVec.eq_of_getLsbD_eq
    intro i inside
    change (rev8 (ofBits (bits p.reverse))).getLsbD i = _
    rw [rev8Get _ inside,ofBitsGet,ofBitsGet,bitsGet,bitsGet,show (8 * (7 - i / 8) + i % 8) / 8 = 7 - i / 8 by omega,
      show (8 * (7 - i / 8) + i % 8) % 8 = i % 8 by omega,List.getD_eq_getElem?_getD,List.getD_eq_getElem?_getD,
      List.getElem?_reverse (by omega),eight,show 8 - 1 - (7 - i / 8) = i / 8 by omega]
    simp [inside,show 8 * (7 - i / 8) + i % 8 < 64 by omega]

/-- Data with their own checksum behind them leave nothing, and no other eight bytes do so. -/
theorem checksumClears (order : ByteOrder) (next : Nat) (data : Bytes) {sum : Bytes} (eight : sum.length = 8) :
    feed turned 0#64 (bits (data ++ sum)) = 0#64 ↔ wordBytes 8 (crc64 order next 0#64 data) = sum := by
  rw [crcspeedFeeds,wordBytesIff eight,bitsAppend,feedAppend]
  exact feedCleared turnedTop (by rw [bitsLen,eight]) _

end stored

/-- Two byte strings that differ only in some of at most 64 successive bits. -/
inductive Burst (p q : Bytes) : Prop where
  | damage (first sent got last : List Bool) (before : bits p = first ++ sent ++ last)
      (after : bits q = first ++ got ++ last) (same : sent.length = got.length) (short : sent.length ≤ 64)
      (differ : sent ≠ got) : Burst p q

theorem burstBytes (first last : Bytes) {sent got : Bytes} (same : sent.length = got.length) (short : sent.length ≤ 8)
    (differ : sent ≠ got) : Burst (first ++ sent ++ last) (first ++ got ++ last) := by
  refine .damage (bits first) (bits sent) (bits got) (bits last) ?_ ?_ ?_ ?_ fun equal => differ (bitsInjective equal)
  · rw [bitsAppend,bitsAppend]
  · rw [bitsAppend,bitsAppend]
  · rw [bitsLen,bitsLen,same]
  · rw [bitsLen]; omega

theorem burstSeen {p q : Bytes} (burst : Burst p q) : feed turned 0#64 (bits p) ≠ feed turned 0#64 (bits q) := by
  obtain ⟨first,sent,got,last,before,after,same,short,differ⟩ := burst
  rw [before,after]
  exact burstApart turnedTop _ same short differ

end HpuCache.Crc64
