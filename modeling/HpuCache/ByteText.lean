import Mathlib.Data.Nat.ModEq
import Mathlib.Data.List.TakeWhile
import Mathlib.Tactic.Ring
import Mathlib.Tactic.NormNum

/-! Byte strings and the C string functions the server applies to them. An
argument of a client is counted, so it may hold zero bytes; `strlen`, `strncmp`
and `strtoll` stop at the first one. -/
namespace HpuCache.ByteText

abbrev Bytes := List UInt8

/-- What a C string function sees of a counted string: everything before its first zero byte. -/
def cstr (s : Bytes) : Bytes := s.takeWhile (fun c => c ≠ 0)

def ZeroFree (s : Bytes) : Prop := ∀ c ∈ s, c ≠ 0
instance (s) : Decidable (ZeroFree s) := List.decidableBAll (fun c => c ≠ 0) s

theorem cstrZeroFree {s : Bytes} (free : ZeroFree s) : cstr s = s :=
  List.takeWhile_eq_self_iff.mpr (by simpa [ZeroFree] using free)

theorem zeroFreeCstr (s : Bytes) : ZeroFree (cstr s) := by
  intro c member
  simpa using List.mem_takeWhile_imp member

@[simp] theorem cstrTwice (s : Bytes) : cstr (cstr s) = cstr s := cstrZeroFree (zeroFreeCstr s)

theorem mapCstr {argv : List Bytes} (free : ∀ a ∈ argv, ZeroFree a) : argv.map cstr = argv :=
  (List.map_congr_left (fun a member => cstrZeroFree (free a member))).trans (List.map_id argv)

/-- `strncmp (a, b, n) = 0`: the terminating zeros take part in the comparison. -/
def strncmpEqual (a b : Bytes) (n : Nat) : Bool :=
  decide ((cstr a ++ [0]).take n = (cstr b ++ [0]).take n)

def toLower (c : UInt8) : UInt8 := if 65 ≤ c ∧ c ≤ 90 then c + 32 else c

def toUpper (c : UInt8) : UInt8 := if 97 ≤ c ∧ c ≤ 122 then c - 32 else c

def strcasecmpEqual (a b : Bytes) : Bool :=
  decide ((cstr a).map toLower = (cstr b).map toLower)

def isSpace (c : UInt8) : Bool := c == 32 || (9 ≤ c && c ≤ 13)
def isDigit (c : UInt8) : Bool := 48 ≤ c && c ≤ 57

def digitsValue (start : Nat) (digits : Bytes) : Nat :=
  digits.foldl (fun acc c => acc * 10 + (c.toNat - 48)) start

def clampLongLong (v : Int) : Int := max (-2^63) (min v (2^63 - 1))

/-- `strtoll (s, end, 10)`. -/
def strtoll (s : Bytes) : Int :=
  match (cstr s).dropWhile isSpace with
  | 45 :: rest => clampLongLong (-(digitsValue 0 (rest.takeWhile isDigit) : Int))
  | 43 :: rest => clampLongLong (digitsValue 0 (rest.takeWhile isDigit))
  | body => clampLongLong (digitsValue 0 (body.takeWhile isDigit))

def digit (t i : Nat) : UInt8 := UInt8.ofNat (48 + t / 10 ^ i % 10)

/-- The `n` low decimal digits of `t`, most significant first. -/
def digitsText : Nat → Nat → Bytes
  | 0, _ => []
  | n + 1, t => digit t n :: digitsText n t

theorem digitNat (t i : Nat) : (digit t i).toNat = 48 + t / 10 ^ i % 10 := by
  have small : t / 10 ^ i % 10 < 10 := Nat.mod_lt _ (by omega)
  simp only [digit,UInt8.toNat_ofNat']
  exact Nat.mod_eq_of_lt (by omega)

theorem digitIsDigit (t i : Nat) : isDigit (digit t i) = true := by
  have small : t / 10 ^ i % 10 < 10 := Nat.mod_lt _ (by omega)
  have value := digitNat t i
  simp only [isDigit,Bool.and_eq_true,decide_eq_true_eq,UInt8.le_iff_toNat_le]
  exact ⟨by rw [value]; change 48 ≤ _; omega,by rw [value]; change _ ≤ 57; omega⟩

theorem digitsTextDigit {n t : Nat} {c : UInt8} (member : c ∈ digitsText n t) : isDigit c = true := by
  induction n with
  | zero => simp [digitsText] at member
  | succ n ih =>
    rcases List.mem_cons.mp member with rfl | rest
    · exact digitIsDigit t n
    · exact ih rest

theorem digitsTextLength (n t : Nat) : (digitsText n t).length = n := by
  induction n with
  | zero => rfl
  | succ n ih => simp [digitsText,ih]

theorem digitsValueText (n start t : Nat) :
    digitsValue start (digitsText n t) = start * 10 ^ n + t % 10 ^ n := by
  induction n generalizing start with
  | zero => simp [digitsText,digitsValue,Nat.mod_one]
  | succ n ih =>
    have head : digitsValue start (digitsText (n + 1) t) =
        digitsValue (start * 10 + t / 10 ^ n % 10) (digitsText n t) := by
      simp [digitsText,digitsValue,digitNat]
    rw [head,ih,Nat.mod_pow_succ]
    ring

theorem digitNotZero {c : UInt8} (h : isDigit c = true) :
    c ≠ 0 ∧ c ≠ 43 ∧ c ≠ 45 ∧ isSpace c = false := by
  simp only [isDigit,Bool.and_eq_true,decide_eq_true_eq,UInt8.le_iff_toNat_le] at h
  obtain ⟨low,_⟩ := h
  change 48 ≤ c.toNat at low
  have apart : ∀ d : UInt8, d.toNat < 48 → c ≠ d := fun d below same => by
    subst same
    omega
  refine ⟨apart 0 (by decide),apart 43 (by decide),apart 45 (by decide),?_⟩
  simp only [isSpace,Bool.or_eq_false_iff,Bool.and_eq_false_iff,beq_eq_false_iff_ne,
    decide_eq_false_iff_not,UInt8.le_iff_toNat_le]
  refine ⟨apart 32 (by decide),.inr ?_⟩
  change ¬ c.toNat ≤ 13
  omega

/-- The clock of the server in microseconds. Its text fills the sixteen characters
that the cache reserves, which holds from 2001 to 2286. -/
structure Ustime where
  value : Nat
  sixteen : 10 ^ 15 ≤ value ∧ value < 10 ^ 16
  deriving DecidableEq

def Ustime.text (t : Ustime) : Bytes := digitsText 16 t.value

theorem ustimeZeroFree (t : Ustime) : ZeroFree t.text :=
  fun _ member => (digitNotZero (digitsTextDigit member)).1

/-- The receiver reads back the value the sender printed. -/
theorem strtollUstime (t : Ustime) : strtoll t.text = t.value := by
  have small := t.sixteen.2
  have whole : t.text.takeWhile isDigit = t.text :=
    List.takeWhile_eq_self_iff.mpr (fun c member => digitsTextDigit member)
  have value : digitsValue 0 t.text = t.value := by
    rw [Ustime.text,digitsValueText,Nat.zero_mul,Nat.zero_add,Nat.mod_eq_of_lt small]
  have clamp : clampLongLong (t.value : Int) = t.value := by
    simp only [clampLongLong]
    omega
  obtain ⟨head,tail,shape⟩ : ∃ head tail, t.text = head :: tail := ⟨_,_,rfl⟩
  have first := digitNotZero (digitsTextDigit (n := 16) (t := t.value) (c := head) (by
    change head ∈ t.text
    rw [shape]
    exact List.mem_cons_self))
  have bare : (cstr t.text).dropWhile isSpace = t.text := by
    rw [cstrZeroFree (ustimeZeroFree t),shape,List.dropWhile_cons_of_neg (by simp [first.2.2.2])]
  unfold strtoll
  rw [bare]
  split
  · rename_i same
    rw [shape] at same
    exact absurd (List.cons.inj same).1 first.2.2.1
  · rename_i same
    rw [shape] at same
    exact absurd (List.cons.inj same).1 first.2.1
  · rw [whole,value,clamp]

theorem ustimeTextInj {t u : Ustime} (same : t.text = u.text) : t = u := by
  have values : (t.value : Int) = u.value := by
    rw [← strtollUstime t,← strtollUstime u,same]
  cases t
  cases u
  simpa using values

end HpuCache.ByteText
