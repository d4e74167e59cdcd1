import HpuCache.ByteText
import Mathlib.Data.Nat.Log

/-! Text files as C programs write and read them: decimals of any width, lines, and arguments
between blanks with their quotes. Tokens that are printed between blanks are read back as the
same tokens. Nothing here names a program. -/
namespace HpuCache.TextLines
open ByteText

/-- A number that is not negative, under `%i`, `%d` and `%llu`. -/
def decimal (n : Nat) : Bytes := digitsText (Nat.log 10 n + 1) n

def signedDecimal (v : Int) : Bytes := if v < 0 then 45 :: decimal v.natAbs else decimal v.natAbs

theorem decimalDigit {n : Nat} {c : UInt8} (member : c ∈ decimal n) : isDigit c = true := digitsTextDigit member

theorem decimalValue (n : Nat) : digitsValue 0 (decimal n) = n := by
  rw [decimal,digitsValueText,Nat.zero_mul,Nat.zero_add,
    Nat.mod_eq_of_lt (Nat.lt_pow_succ_log_self (by decide) n)]

theorem decimalHead (n : Nat) : ∃ head tail, decimal n = head :: tail := ⟨_,_,rfl⟩

theorem decimalLength {n k : Nat} (positive : 0 < k) (small : n < 10 ^ k) : (decimal n).length ≤ k := by
  rw [decimal,digitsTextLength]
  exact Nat.log_lt_of_lt_pow' (by omega) small

theorem decimalFree (n : Nat) : ZeroFree (decimal n) := fun _ member => (digitNotZero (decimalDigit member)).1

theorem decimalWhole (n : Nat) : (decimal n).takeWhile isDigit = decimal n :=
  List.takeWhile_eq_self_iff.mpr fun _ member => decimalDigit member

theorem decimalBare (n : Nat) : (cstr (decimal n)).dropWhile isSpace = decimal n := by
  obtain ⟨head,tail,shape⟩ := decimalHead n
  have first := digitNotZero (decimalDigit (n := n) (c := head) (by rw [shape]; exact List.mem_cons_self))
  rw [cstrZeroFree (decimalFree n),shape,List.dropWhile_cons_of_neg (by simp [first.2.2.2])]

theorem decimalUnsigned (n : Nat) (rest : Bytes) : decimal n ≠ 45 :: rest ∧ decimal n ≠ 43 :: rest := by
  obtain ⟨head,tail,shape⟩ := decimalHead n
  have first := digitNotZero (decimalDigit (n := n) (c := head) (by rw [shape]; exact List.mem_cons_self))
  exact ⟨fun same => first.2.2.1 (List.cons.inj (shape.symm.trans same)).1,
    fun same => first.2.1 (List.cons.inj (shape.symm.trans same)).1⟩

theorem strtollDecimal {n : Nat} (small : n < 2 ^ 63) : strtoll (decimal n) = n := by
  unfold strtoll
  rw [decimalBare]
  split
  · next same => exact absurd same (decimalUnsigned n _).1
  · next same => exact absurd same (decimalUnsigned n _).2
  · rw [decimalWhole,decimalValue,clampLongLong]
    omega

theorem strtollSigned {v : Int} (low : -2 ^ 63 ≤ v) (high : v < 2 ^ 63) : strtoll (signedDecimal v) = v := by
  rw [signedDecimal]
  split
  · have free : ZeroFree (45 :: decimal v.natAbs) := by
      intro c inside
      rcases List.mem_cons.mp inside with rfl | digits
      · decide
      · exact decimalFree _ c digits
    have bare : (cstr (45 :: decimal v.natAbs)).dropWhile isSpace = 45 :: decimal v.natAbs := by
      rw [cstrZeroFree free]
      rfl
    unfold strtoll
    rw [bare]
    change clampLongLong (-(digitsValue 0 ((decimal v.natAbs).takeWhile isDigit) : Int)) = v
    rw [decimalWhole,decimalValue,clampLongLong]
    omega
  · rw [strtollDecimal (by omega)]
    omega

/-- `atoi` keeps the low word of what `strtol` returns. -/
def atoi (s : Bytes) : Int := (strtoll s).bmod (2 ^ 32)

theorem atoiDecimal {n : Nat} (small : n < 2 ^ 31) : atoi (decimal n) = n := by
  rw [atoi,strtollDecimal (by omega)]
  exact Int.bmod_eq_of_le (by omega) (by omega)

theorem atoiSigned {v : Int} (low : -2 ^ 31 ≤ v) (high : v < 2 ^ 31) : atoi (signedDecimal v) = v := by
  rw [atoi,strtollSigned (by omega) (by omega)]
  exact Int.bmod_eq_of_le (by omega) (by omega)

/-- `strtoull (s, end, 10)`: a minus sign negates the value that was read. -/
def strtoull (s : Bytes) : Nat :=
  match (cstr s).dropWhile isSpace with
  | 45 :: rest =>
    let value := digitsValue 0 (rest.takeWhile isDigit)
    if value < 2 ^ 64 then (2 ^ 64 - value) % 2 ^ 64 else 2 ^ 64 - 1
  | 43 :: rest => min (digitsValue 0 (rest.takeWhile isDigit)) (2 ^ 64 - 1)
  | body => min (digitsValue 0 (body.takeWhile isDigit)) (2 ^ 64 - 1)

theorem strtoullDecimal {n : Nat} (small : n < 2 ^ 64) : strtoull (decimal n) = n := by
  unfold strtoull
  rw [decimalBare]
  split
  · next same => exact absurd same (decimalUnsigned n _).1
  · next same => exact absurd same (decimalUnsigned n _).2
  · rw [decimalWhole,decimalValue]
    omega

def cutFirst (c : UInt8) : Bytes → Option (Bytes × Bytes)
  | [] => none
  | b :: rest => if b = c then some ([],rest) else (cutFirst c rest).map fun parts => (b :: parts.1,parts.2)

def cutLast (c : UInt8) : Bytes → Option (Bytes × Bytes)
  | [] => none
  | b :: rest =>
    match cutLast c rest with
    | some parts => some (b :: parts.1,parts.2)
    | none => if b = c then some ([],rest) else none

/-- What stands before and after the byte that `strchr` finds. -/
def strchr (s : Bytes) (c : UInt8) : Option (Bytes × Bytes) := cutFirst c (cstr s)

def strrchr (s : Bytes) (c : UInt8) : Option (Bytes × Bytes) := cutLast c (cstr s)

theorem cutFirstAt {c : UInt8} {before after : Bytes} (absent : c ∉ before) :
    cutFirst c (before ++ c :: after) = some (before,after) := by
  induction before with
  | nil => simp [cutFirst]
  | cons b rest ih =>
    simp only [List.mem_cons,not_or] at absent
    simp [cutFirst,Ne.symm absent.1,ih absent.2]

theorem cutFirstNone {c : UInt8} {s : Bytes} (absent : c ∉ s) : cutFirst c s = none := by
  induction s with
  | nil => rfl
  | cons b rest ih =>
    simp only [List.mem_cons,not_or] at absent
    simp [cutFirst,Ne.symm absent.1,ih absent.2]

theorem cutLastNone {c : UInt8} {s : Bytes} (absent : c ∉ s) : cutLast c s = none := by
  induction s with
  | nil => rfl
  | cons b rest ih =>
    simp only [List.mem_cons,not_or] at absent
    simp [cutLast,Ne.symm absent.1,ih absent.2]

theorem cutLastAt {c : UInt8} {before after : Bytes} (absent : c ∉ after) :
    cutLast c (before ++ c :: after) = some (before,after) := by
  induction before with
  | nil => simp [cutLast,cutLastNone absent]
  | cons b rest ih => simp [cutLast,ih]

/-- What ends a token of `sdssplitargs` or opens a quoted one, and the zero byte. -/
def plainByte (c : UInt8) : Bool := !isSpace c && c != 0 && c != 34 && c != 39

def Plain (s : Bytes) : Prop := ∀ c ∈ s, plainByte c = true
instance (s) : Decidable (Plain s) := List.decidableBAll (fun c => plainByte c = true) s

def isHexDigit (c : UInt8) : Bool := isDigit c || (97 ≤ c && c ≤ 102) || (65 ≤ c && c ≤ 70)

def hexDigitToInt (c : UInt8) : UInt8 := if isDigit c then c - 48 else toLower c - 87

/-- The character behind a backslash, in double quotes. -/
def unescape (c : UInt8) : UInt8 :=
  if c = 110 then 10 else if c = 114 then 13 else if c = 116 then 9 else if c = 98 then 8 else if c = 97 then 7 else c

/-- A closing quote must be followed by a space or nothing at all. -/
def closed (rest : Bytes) : Bool := isSpace (rest.headD 32)

def inQuotes (current : Bytes) : Bytes → Option (Bytes × Bytes)
  | [] => none
  | [c] => if c = 34 then some (current,[]) else none
  | c :: d :: rest =>
    if c = 92 then
      match d,rest with
      | 120,high :: low :: rest =>
        if isHexDigit high && isHexDigit low then
          inQuotes (current ++ [hexDigitToInt high * 16 + hexDigitToInt low]) rest
        else inQuotes (current ++ [unescape d]) (high :: low :: rest)
      | d,rest => inQuotes (current ++ [unescape d]) rest
    else if c = 34 then (if closed (d :: rest) then some (current,d :: rest) else none)
    else inQuotes (current ++ [c]) (d :: rest)

def inSingleQuotes (current : Bytes) : Bytes → Option (Bytes × Bytes)
  | [] => none
  | [c] => if c = 39 then some (current,[]) else none
  | c :: d :: rest =>
    if c = 92 ∧ d = 39 then inSingleQuotes (current ++ [39]) rest
    else if c = 39 then (if closed (d :: rest) then some (current,d :: rest) else none)
    else inSingleQuotes (current ++ [c]) (d :: rest)

/-- One token and what is left behind it. -/
def token (current : Bytes) : Bytes → Option (Bytes × Bytes)
  | [] => some (current,[])
  | c :: rest =>
    if c = 32 ∨ c = 10 ∨ c = 13 ∨ c = 9 then some (current,rest)
    else if c = 34 then inQuotes current rest
    else if c = 39 then inSingleQuotes current rest
    else token (current ++ [c]) rest

theorem inQuotesShorter {current s word rest : Bytes} (read : inQuotes current s = some (word,rest)) :
    rest.length < s.length := by
  fun_induction inQuotes current s with
  | case1 => contradiction
  | case2 => simp_all
  | case3 => contradiction
  | case4 _ _ _ _ _ ih => have := ih read; simp only [List.length_cons] at *; omega
  | case5 _ _ _ _ _ ih => have := ih read; simp only [List.length_cons] at *; omega
  | case6 _ _ _ _ ih => have := ih read; simp only [List.length_cons] at *; omega
  | case7 => simp_all
  | case8 => contradiction
  | case9 _ _ _ _ _ _ ih => have := ih read; simp only [List.length_cons] at *; omega

theorem inSingleQuotesShorter {current s word rest : Bytes}
    (read : inSingleQuotes current s = some (word,rest)) : rest.length < s.length := by
  fun_induction inSingleQuotes current s with
  | case1 => contradiction
  | case2 => simp_all
  | case3 => contradiction
  | case4 _ _ _ _ _ ih => have := ih read; simp only [List.length_cons] at *; omega
  | case5 => simp_all
  | case6 => contradiction
  | case7 _ _ _ _ _ _ ih => have := ih read; simp only [List.length_cons] at *; omega

theorem tokenShorter {current s word rest : Bytes} (read : token current s = some (word,rest)) :
    rest.length ≤ s.length - 1 := by
  fun_induction token current s with
  | case1 => simp_all
  | case2 => simp_all
  | case3 => have := inQuotesShorter read; simp only [List.length_cons]; omega
  | case4 => have := inSingleQuotesShorter read; simp only [List.length_cons]; omega
  | case5 _ _ _ _ _ _ ih => have := ih read; simp only [List.length_cons]; omega

theorem blanksLeft (s : Bytes) : (s.dropWhile isSpace).length ≤ s.length :=
  (List.dropWhile_sublist isSpace).length_le

def tokens (s : Bytes) : Option (List Bytes) :=
  match s.dropWhile isSpace, blanksLeft s with
  | [], _ => some []
  | c :: rest, _short =>
    match _read : token [] (c :: rest) with
    | none => none
    | some (word,after) => (tokens after).map (word :: ·)
termination_by s.length
decreasing_by
  have shorter := tokenShorter _read
  simp only [List.length_cons] at shorter _short
  omega

/-- The line as arguments, if its quotes are balanced. -/
def sdssplitargs (line : Bytes) : Option (List Bytes) := tokens (cstr line)

theorem plainOf {c : UInt8} (plain : plainByte c = true) :
    isSpace c = false ∧ c ≠ 0 ∧ c ≠ 34 ∧ c ≠ 39 ∧ c ≠ 32 ∧ c ≠ 10 ∧ c ≠ 13 ∧ c ≠ 9 := by
  simp only [plainByte,Bool.and_eq_true,Bool.not_eq_true',bne_iff_ne,ne_eq] at plain
  obtain ⟨⟨⟨space,zero⟩,double⟩,single⟩ := plain
  have apart : ∀ d : UInt8, isSpace d = true → c ≠ d := fun d blank same => by
    rw [same,blank] at space
    contradiction
  exact ⟨space,zero,double,single,apart 32 rfl,apart 10 rfl,apart 13 rfl,apart 9 rfl⟩

theorem Plain.zeroFree {s : Bytes} (plain : Plain s) : ZeroFree s := fun c inside => (plainOf (plain c inside)).2.1

theorem plainDigit {c : UInt8} (number : isDigit c = true) : plainByte c = true := by
  have space := (digitNotZero number).2.2.2
  simp only [isDigit,Bool.and_eq_true,decide_eq_true_eq,UInt8.le_iff_toNat_le] at number
  have low : 48 ≤ c.toNat := number.1
  have apart : ∀ d : UInt8, d.toNat < 48 → c ≠ d := fun d below same => by
    subst same
    omega
  simp [plainByte,space,apart 0 (by decide),apart 34 (by decide),apart 39 (by decide)]

theorem plainDecimal (n : Nat) : Plain (decimal n) := fun _ inside => plainDigit (decimalDigit inside)

theorem decimalFilled (n : Nat) : decimal n ≠ [] := by
  obtain ⟨head,tail,shape⟩ := decimalHead n
  simp [shape]

theorem signedByte {v : Int} {c : UInt8} (inside : c ∈ signedDecimal v) : c = 45 ∨ isDigit c = true := by
  rw [signedDecimal] at inside
  split at inside
  · rcases List.mem_cons.mp inside with rfl | digits
    · exact .inl rfl
    · exact .inr (decimalDigit digits)
  · exact .inr (decimalDigit inside)

theorem plainSigned (v : Int) : Plain (signedDecimal v) := by
  intro c inside
  rcases signedByte inside with rfl | number
  · decide
  · exact plainDigit number

theorem signedFilled (v : Int) : signedDecimal v ≠ [] := by
  rw [signedDecimal]
  split
  · simp
  · exact decimalFilled _

theorem signedLength {v : Int} {k : Nat} (positive : 0 < k) (small : v.natAbs < 10 ^ k) :
    (signedDecimal v).length ≤ k + 1 := by
  have digits := decimalLength positive small
  rw [signedDecimal]
  split
  · exact Nat.succ_le_succ digits
  · exact digits.trans (Nat.le_succ k)

theorem tokenPlain {s : Bytes} (plain : Plain s) (current rest : Bytes) {blank : UInt8}
    (ends : blank = 32 ∨ blank = 10) : token current (s ++ blank :: rest) = some (current ++ s,rest) := by
  induction s generalizing current with
  | nil => rcases ends with rfl | rfl <;> simp [token]
  | cons c tail ih =>
    obtain ⟨_,_,double,single,h32,h10,h13,h9⟩ := plainOf (plain c List.mem_cons_self)
    have later := ih (fun d inside => plain d (List.mem_cons_of_mem _ inside)) (current ++ [c])
    rw [List.append_assoc,List.singleton_append] at later
    simp only [List.cons_append,token,double,single,h32,h10,h13,h9,or_self,if_false,later]

theorem tokensNil : tokens [] = some [] := by
  rw [tokens]
  rfl

theorem tokensCons {s rest : Bytes} (plain : Plain s) (filled : s ≠ []) {blank : UInt8}
    (ends : blank = 32 ∨ blank = 10) :
    tokens (s ++ blank :: rest) = (tokens rest).map (s :: ·) := by
  obtain ⟨c,tail,rfl⟩ := List.exists_cons_of_ne_nil filled
  have start : isSpace c = false := (plainOf (plain c List.mem_cons_self)).1
  have bare : ((c :: tail) ++ blank :: rest).dropWhile isSpace = (c :: tail) ++ blank :: rest := by
    rw [List.cons_append,List.dropWhile_cons_of_neg (by simp [start])]
  have read := tokenPlain plain [] rest ends
  rw [tokens]
  split
  · rename_i empty _
    rw [bare] at empty
    contradiction
  · rename_i d after same _
    rw [bare] at same
    rw [← same,read]
    rfl

/-- Tokens as they are printed: one blank before each but the first, and a newline. -/
def joined (first : Bytes) (others : List Bytes) : Bytes := first ++ others.flatMap fun word => 32 :: word

theorem splitJoined {first : Bytes} {others : List Bytes} (plain : ∀ word ∈ first :: others, Plain word ∧ word ≠ []) :
    sdssplitargs (joined first others ++ [10]) = some (first :: others) := by
  have free : ZeroFree (joined first others ++ [10]) := by
    intro c inside
    simp only [joined,List.mem_append,List.mem_flatMap,List.mem_cons,List.not_mem_nil,or_false] at inside
    rcases inside with (here | ⟨word,member,rfl | here⟩) | rfl
    · exact (plain first List.mem_cons_self).1.zeroFree c here
    · decide
    · exact (plain word (List.mem_cons_of_mem _ member)).1.zeroFree c here
    · decide
  rw [sdssplitargs,cstrZeroFree free]
  clear free
  induction others generalizing first with
  | nil =>
    obtain ⟨mine,filled⟩ := plain first List.mem_cons_self
    rw [joined,List.flatMap_nil,List.append_nil,tokensCons mine filled (.inr rfl),tokensNil]
    rfl
  | cons word rest ih =>
    obtain ⟨mine,filled⟩ := plain first List.mem_cons_self
    have shape : joined first (word :: rest) ++ [10] = first ++ 32 :: (joined word rest ++ [10]) := by
      simp [joined]
    rw [shape,tokensCons mine filled (.inl rfl),ih fun other inside => plain other (List.mem_cons_of_mem _ inside)]
    rfl

/-- What one call of `fgets` stores and leaves, in a buffer with room for so many bytes. -/
def fgets : Nat → Bytes → Bytes × Bytes
  | 0, s => ([],s)
  | _ + 1, [] => ([],[])
  | room + 1, c :: rest => if c = 10 then ([c],rest) else (c :: (fgets room rest).1,(fgets room rest).2)

theorem fgetsLeft (room : Nat) (s : Bytes) : (fgets room s).2.length ≤ s.length := by
  induction room generalizing s with
  | zero => exact Nat.le_refl _
  | succ room ih =>
    cases s with
    | nil => exact Nat.le_refl _
    | cons c rest =>
      rw [fgets]
      split
      · simp
      · exact (ih rest).trans (Nat.le_succ _)

theorem fgetsShorter (room : Nat) (c : UInt8) (rest : Bytes) :
    (fgets (room + 1) (c :: rest)).2.length < (c :: rest).length := by
  rw [fgets]
  split
  · simp
  · exact Nat.lt_succ_of_le (fgetsLeft room rest)

/-- The pieces that `fgets` hands out until the end of the file. The buffer has room for
`room + 1` bytes and the zero behind them. -/
def linesOf (room : Nat) : Bytes → List Bytes
  | [] => []
  | c :: rest => (fgets (room + 1) (c :: rest)).1 :: linesOf room (fgets (room + 1) (c :: rest)).2
termination_by s => s.length
decreasing_by exact fgetsShorter room c rest

theorem fgetsLine {room : Nat} {line rest : Bytes} (oneLine : 10 ∉ line) (fits : line.length ≤ room) :
    fgets (room + 1) (line ++ 10 :: rest) = (line ++ [10],rest) := by
  induction line generalizing room with
  | nil => simp [fgets]
  | cons c tail ih =>
    simp only [List.mem_cons,not_or] at oneLine
    obtain ⟨less,rfl⟩ := Nat.exists_eq_succ_of_ne_zero (Nat.ne_of_gt (Nat.lt_of_lt_of_le (Nat.succ_pos _) fits))
    have later := ih oneLine.2 (Nat.le_of_succ_le_succ fits)
    rw [List.cons_append,fgets,if_neg (Ne.symm oneLine.1),later]
    rfl

theorem linesCons {room : Nat} {line rest : Bytes} (oneLine : 10 ∉ line) (fits : line.length ≤ room) :
    linesOf room (line ++ 10 :: rest) = (line ++ [10]) :: linesOf room rest := by
  have read : fgets (room + 1) (line ++ 10 :: rest) = (line ++ [10],rest) := fgetsLine oneLine fits
  cases shape : line ++ 10 :: rest with
  | nil => simp at shape
  | cons c tail =>
    rw [shape] at read
    rw [linesOf,read]

theorem linesPadding (room k : Nat) : linesOf room (List.replicate k 10) = List.replicate k [10] := by
  induction k with
  | zero => rw [List.replicate_zero,linesOf]; rfl
  | succ k ih =>
    have one : linesOf room ([] ++ 10 :: List.replicate k 10) = ([] ++ [10]) :: linesOf room (List.replicate k 10) :=
      linesCons (by simp) (Nat.zero_le _)
    rw [List.replicate_succ,← List.nil_append (10 :: _),one,ih]
    rfl

/-- A text of short lines, and newlines behind it. -/
theorem linesText {room : Nat} {texts : List Bytes} (short : ∀ line ∈ texts, 10 ∉ line ∧ line.length ≤ room) (k : Nat) :
    linesOf room ((texts.flatMap fun line => line ++ [10]) ++ List.replicate k 10) =
      (texts.map fun line => line ++ [10]) ++ List.replicate k [10] := by
  induction texts with
  | nil => exact linesPadding room k
  | cons line rest ih =>
    obtain ⟨oneLine,fits⟩ := short line List.mem_cons_self
    have shape : ((line :: rest).flatMap fun line => line ++ [10]) ++ List.replicate k 10 =
        line ++ 10 :: ((rest.flatMap fun line => line ++ [10]) ++ List.replicate k 10) := by simp
    rw [shape,linesCons oneLine fits,ih fun other inside => short other (List.mem_cons_of_mem _ inside)]
    rfl

/-- Words with a comma behind each, and the last comma taken away. -/
theorem splitCommas {words : List Bytes} (filled : words ≠ []) (free : ∀ word ∈ words, 44 ∉ word) :
    ((words.flatMap fun word => word ++ [44]).dropLast).splitOn 44 = words := by
  have shape : (words.flatMap fun word => word ++ [44]).dropLast = [44].intercalate words := by
    clear free
    induction words with
    | nil => contradiction
    | cons word rest ih =>
      cases rest with
      | nil => simp
      | cons other rest =>
        have later := ih (by simp)
        rw [List.flatMap_cons,List.dropLast_append_of_ne_nil (by simp),later]
        simp [List.intercalate]
  rw [shape,List.splitOn_intercalate 44 free filled]

end HpuCache.TextLines
