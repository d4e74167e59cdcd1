import HpuCache.TextLines
import HpuCache.WriteCommands

/-! The MIGRATE request of the cluster manager against the options that the server reads from it.
The vector is allocated by one count and filled at positions that another count gives. -/
namespace HpuCache.MigrateRequest
open ByteText TextLines WriteCommands

def textMigrate : Bytes := [77,73,71,82,65,84,69]
def textReplace : Bytes := [82,69,80,76,65,67,69]
def textCopy : Bytes := [67,79,80,89]
def textAuth : Bytes := [65,85,84,72]
def textAuth2 : Bytes := [65,85,84,72,50]
def textKeys : Bytes := [75,69,89,83]

/-- The settings of the client and the parameters of the call. The credentials are C strings. -/
structure Settings where
  ip : Bytes
  port : Int
  replace : Bool
  copy : Bool
  auth : Option Bytes
  user : Option Bytes
  timeout : Int
  int : -2 ^ 31 ≤ timeout ∧ timeout < 2 ^ 31

/-- `snprintf(s, 10, "%d", v)`. -/
def shortText (v : Int) : Bytes := (signedDecimal v).take 9

/-- The positions written so far, and the next one. -/
structure Filling where
  writes : List (Nat × Bytes)
  offset : Nat

def Filling.put (st : Filling) (text : Bytes) : Filling := ⟨st.writes ++ [(st.offset,text)],st.offset + 1⟩

def argumentCount (o : Settings) (keys : List Bytes) : Nat :=
  (if o.replace then 8 else 7) + (if o.auth.isSome then 2 else 0) + (if o.user.isSome then 1 else 0) +
    (if o.copy then 1 else 0) + keys.length

def fillCredentials (o : Settings) (st : Filling) : Filling :=
  match o.auth with
  | none => st
  | some auth =>
    match o.user with
    | some user => ((st.put textAuth2).put (cstr user)).put (cstr auth)
    | none => (st.put textAuth).put (cstr auth)

/-- The writes of `clusterManagerMigrateKeysInReply`, in its order. -/
def fillArguments (o : Settings) (keys : List Bytes) : List (Nat × Bytes) :=
  let st : Filling := ⟨[(0,textMigrate),(1,cstr o.ip),(2,shortText o.port),(3,[]),(4,[48]),(5,shortText o.timeout)],6⟩
  let st := if o.replace then st.put textReplace else st
  let st := if o.copy then st.put textCopy else st
  let st := (fillCredentials o st).put textKeys
  st.writes ++ keys.zipIdx.map fun key => (key.2 + st.offset,key.1)

/-- The allocated vector is zeroed; a position that is not written is sent as an empty argument. -/
def clusterManagerMigrateKeysInReply (o : Settings) (keys : List Bytes) : List Bytes :=
  let argv := (fillArguments o keys).foldl (fun argv w => argv.set w.1 (some w.2))
    (List.replicate (argumentCount o keys) none)
  argv.map fun argument => argument.getD []

inductive MigrateError where
  | syntaxerr
  | keyNotEmpty
  | notInteger
  deriving DecidableEq

structure MigrateOptions where
  copy : Bool
  replace : Bool
  username : Option Bytes
  password : Option Bytes
  deriving DecidableEq

/-- The loop over the options; the keys behind KEYS, if it is there. -/
def optionLoop (key : Bytes) (o : MigrateOptions) : List Bytes →
    Except MigrateError (MigrateOptions × Option (List Bytes))
  | [] => .ok (o,none)
  | word :: rest =>
    if strcasecmpEqual word textCopy then optionLoop key { o with copy := true } rest
    else if strcasecmpEqual word textReplace then optionLoop key { o with replace := true } rest
    else if strcasecmpEqual word textAuth then
      match rest with
      | [] => .error .syntaxerr
      | password :: rest => optionLoop key { o with password := some password } rest
    else if strcasecmpEqual word textAuth2 then
      match rest with
      | username :: password :: rest =>
        optionLoop key { o with username := some username, password := some password } rest
      | _ => .error .syntaxerr
    else if strcasecmpEqual word textKeys then
      if key ≠ [] then .error .keyNotEmpty else .ok (o,some rest)
    else .error .syntaxerr

/-- What `migrateCommand` has read when it looks for its keys; a timeout that is not positive is
replaced after that. -/
structure MigrateRead where
  options : MigrateOptions
  timeout : Int
  dbid : Int
  keys : List Bytes
  deriving DecidableEq

def getLong (text : Bytes) : Except MigrateError Int :=
  match string2ll text with
  | some value => .ok value
  | none => .error .notInteger

def migrateCommand (argv : List Bytes) : Except MigrateError MigrateRead := do
  let (options,keys) ← optionLoop (argv.getD 3 []) ⟨false,false,none,none⟩ (argv.drop 6)
  let timeout ← getLong (argv.getD 5 [])
  let dbid ← getLong (argv.getD 4 [])
  .ok ⟨options,timeout,dbid,keys.getD [argv.getD 3 []]⟩

/-- Every position is filled once, and the server reads what the client has set. -/
structure Agrees (o : Settings) (keys : List Bytes) : Prop where
  filled : (fillArguments o keys).map Prod.fst = List.range (argumentCount o keys)
  read : migrateCommand (clusterManagerMigrateKeysInReply o keys) =
    .ok ⟨⟨o.copy,o.replace,o.user.map cstr,o.auth.map cstr⟩,o.timeout,0,keys⟩

section numbers

theorem digitsBound {digits : Bytes} (all : ∀ c ∈ digits, isDigit c = true) (start : Nat) :
    digitsValue start digits < (start + 1) * 10 ^ digits.length := by
  induction digits generalizing start with
  | nil => simp [digitsValue]
  | cons c rest ih =>
    have digit := all c List.mem_cons_self
    simp only [isDigit,Bool.and_eq_true,decide_eq_true_eq,UInt8.le_iff_toNat_le] at digit
    have small : c.toNat - 48 ≤ 9 := by
      have high : c.toNat ≤ 57 := digit.2
      omega
    have later := ih (fun d inside => all d (List.mem_cons_of_mem _ inside)) (start * 10 + (c.toNat - 48))
    calc digitsValue start (c :: rest) = digitsValue (start * 10 + (c.toNat - 48)) rest := rfl
      _ < (start * 10 + (c.toNat - 48) + 1) * 10 ^ rest.length := later
      _ ≤ ((start + 1) * 10) * 10 ^ rest.length := Nat.mul_le_mul_right _ (by omega)
      _ = (start + 1) * 10 ^ (c :: rest).length := by rw [List.length_cons,Nat.pow_succ]; ring

/-- A number that is read is bounded by the length of its text. -/
theorem readBound {text : Bytes} {v : Int} (read : string2ll text = some v) :
    v < 10 ^ text.length ∧ (v < 0 → ∃ body, text = 45 :: body ∧ -v < 10 ^ body.length) := by
  have power : ∀ n : Nat, (0 : Int) < 10 ^ n := fun n => by positivity
  have bound {digits : Bytes} (all : digits.all isDigit = true) :
      (digitsValue 0 digits : Int) < 10 ^ digits.length := by
    have small := digitsBound (List.all_eq_true.mp all) 0
    rw [Nat.zero_add,Nat.one_mul] at small
    exact_mod_cast small
  by_cases zero : text = [48]
  · subst zero
    obtain rfl := Option.some.inj read
    exact ⟨power _,fun less => absurd less (by decide)⟩
  cases negative : text.headD 0 == 45 with
  | true =>
    simp only [string2ll,negative,if_neg zero,if_true] at read
    split at read <;> try contradiction
    rename_i digits
    rw [Bool.and_eq_true] at digits
    have small := bound digits.2
    split at read <;> try contradiction
    obtain rfl := Option.some.inj read
    refine ⟨by have := power text.length; omega,fun _ => ?_⟩
    cases text with
    | nil => simp at negative
    | cons c body =>
      obtain rfl : c = 45 := by simpa using negative
      exact ⟨body,rfl,by rwa [neg_neg]⟩
  | false =>
    simp only [string2ll,negative,if_neg zero,Bool.false_eq_true,if_false] at read
    split at read <;> try contradiction
    rename_i digits
    rw [Bool.and_eq_true] at digits
    have small := bound digits.2
    split at read <;> try contradiction
    obtain rfl := Option.some.inj read
    exact ⟨small,fun less => by omega⟩

theorem decimalFirst {n : Nat} (positive : 0 < n) : ∃ head tail, decimal n = head :: tail ∧ 49 ≤ head := by
  refine ⟨digit n (Nat.log 10 n),digitsText (Nat.log 10 n) n,rfl,?_⟩
  have low : 1 ≤ n / 10 ^ Nat.log 10 n :=
    (Nat.one_le_div_iff (by positivity)).mpr (Nat.pow_log_le_self 10 (by omega))
  have high : n / 10 ^ Nat.log 10 n < 10 :=
    Nat.div_lt_of_lt_mul (by rw [← Nat.pow_succ]; exact Nat.lt_pow_succ_log_self (by decide) n)
  rw [UInt8.le_iff_toNat_le,digitNat,Nat.mod_eq_of_lt high]
  change 49 ≤ _
  omega

theorem readSigned {v : Int} (low : -2 ^ 63 ≤ v) (high : v < 2 ^ 63) : string2ll (signedDecimal v) = some v := by
  have all : (decimal v.natAbs).all isDigit = true := List.all_eq_true.mpr fun _ inside => decimalDigit inside
  by_cases zero : v = 0
  · subst zero
    decide
  obtain ⟨head,tail,shape,first⟩ := decimalFirst (n := v.natAbs) (by omega)
  have value := decimalValue v.natAbs
  rw [shape] at all value
  have minus : head ≠ 45 := by
    rintro rfl
    exact absurd first (by decide)
  by_cases less : v < 0
  · rw [signedDecimal,if_pos less,shape]
    simp only [string2ll,List.headD_cons,List.tail_cons,beq_self_eq_true,if_true,value,first,all]
    rw [if_neg (by simp),if_pos (by simp),if_pos (by omega)]
    congr 1
    omega
  · rw [signedDecimal,if_neg less,shape]
    have plain : (head == 45) = false := by simpa using minus
    have other : head :: tail ≠ [48] := by
      intro same
      rw [(List.cons.inj same).1] at first
      exact absurd first (by decide)
    simp only [string2ll,List.headD_cons,plain,Bool.false_eq_true,if_false,value,first,all,if_neg other]
    rw [if_pos (by simp),if_pos (by omega)]
    congr 1
    omega

theorem signedShort {v : Int} (low : -10 ^ 8 < v) (high : v < 10 ^ 9) : shortText v = signedDecimal v := by
  refine List.take_of_length_le ?_
  rw [signedDecimal]
  split
  · have digits := decimalLength (n := v.natAbs) (k := 8) (by decide) (by omega)
    simp only [List.length_cons]
    omega
  · exact decimalLength (by decide) (by omega)

/-- Nine characters hold the number exactly when it needs no more. -/
theorem shortIff {v : Int} (low : -2 ^ 63 ≤ v) (high : v < 2 ^ 63) :
    string2ll (shortText v) = some v ↔ -10 ^ 8 < v ∧ v < 10 ^ 9 := by
  constructor
  · intro read
    obtain ⟨above,below⟩ := readBound read
    have length : (shortText v).length ≤ 9 := List.length_take_le _ _
    constructor
    · by_contra far
      obtain ⟨body,shape,small⟩ := below (by omega)
      rw [shape,List.length_cons] at length
      have power : (10 : Int) ^ body.length ≤ 10 ^ 8 := pow_le_pow_right₀ (by decide) (by omega)
      omega
    · have power : (10 : Int) ^ (shortText v).length ≤ 10 ^ 9 := pow_le_pow_right₀ (by decide) length
      omega
  · rintro ⟨near,small⟩
    rw [signedShort near small,readSigned low high]

end numbers

section vector

/-- Writes at the next positions, one after the other. -/
theorem fillNext (front : List (Option Bytes)) (values : List Bytes) (m : Nat) :
    (values.zipIdx front.length).foldl (fun argv w => argv.set w.2 (some w.1))
      (front ++ List.replicate (values.length + m) none) = front ++ values.map some ++ List.replicate m none := by
  induction values generalizing front with
  | nil => simp
  | cons value rest ih =>
    have first : (front ++ List.replicate ((value :: rest).length + m) none).set front.length (some value) =
        (front ++ [some value]) ++ List.replicate (rest.length + m) none := by
      rw [List.length_cons,Nat.add_right_comm,List.replicate_succ,List.set_append_right _ _ (Nat.le_refl _)]
      simp
    have next := ih (front ++ [some value])
    rw [List.length_append,List.length_singleton] at next
    rw [List.zipIdx_cons,List.foldl_cons,first,next]
    simp

def credentialWords (o : Settings) : List Bytes :=
  match o.auth,o.user with
  | none,_ => []
  | some auth,some user => [textAuth2,cstr user,cstr auth]
  | some auth,none => [textAuth,cstr auth]

def optionWords (o : Settings) : List Bytes :=
  (if o.replace then [textReplace] else []) ++ (if o.copy then [textCopy] else []) ++ credentialWords o

def requestWords (o : Settings) (keys : List Bytes) : List Bytes :=
  [textMigrate,cstr o.ip,shortText o.port,[],[48],shortText o.timeout] ++ (optionWords o ++ textKeys :: keys)

/-- The position that is counted for a user without a password. -/
def spare (o : Settings) : Nat := if o.user.isSome ∧ o.auth = none then 1 else 0

structure Numbered (st : Filling) (values : List Bytes) : Prop where
  writes : st.writes = values.zipIdx.map Prod.swap
  offset : st.offset = values.length

theorem Numbered.put {st : Filling} {values : List Bytes} (numbered : Numbered st values) (text : Bytes) :
    Numbered (st.put text) (values ++ [text]) := by
  refine ⟨?_,?_⟩
  · rw [Filling.put,numbered.writes,numbered.offset,List.zipIdx_append,List.map_append]
    simp
  · rw [Filling.put,numbered.offset,List.length_append,List.length_singleton]

theorem Numbered.credentials {st : Filling} {values : List Bytes} (numbered : Numbered st values) (o : Settings) :
    Numbered (fillCredentials o st) (values ++ credentialWords o) := by
  rw [fillCredentials,credentialWords]
  cases o.auth with
  | none => simpa using numbered
  | some auth =>
    cases o.user with
    | none => simpa using (numbered.put textAuth).put (cstr auth)
    | some user => simpa using ((numbered.put textAuth2).put (cstr user)).put (cstr auth)

variable (o : Settings) (keys : List Bytes)

theorem fillWords : fillArguments o keys = (requestWords o keys).zipIdx.map Prod.swap := by
  let head := [textMigrate,cstr o.ip,shortText o.port,[],[48],shortText o.timeout]
  have start : Numbered ⟨[(0,textMigrate),(1,cstr o.ip),(2,shortText o.port),(3,[]),(4,[48]),(5,shortText o.timeout)],6⟩ head :=
    ⟨rfl,rfl⟩
  have optional {st : Filling} {values : List Bytes} (numbered : Numbered st values) (b : Bool) (text : Bytes) :
      Numbered (if b then st.put text else st) (values ++ if b then [text] else []) := by
    cases b
    · simpa using numbered
    · exact numbered.put text
  have all := (((optional (optional start o.replace textReplace) o.copy textCopy).credentials o).put textKeys)
  have shift (n : Nat) : (keys.zipIdx.map fun key => (key.2 + n,key.1)) = (keys.zipIdx n).map Prod.swap := by
    have numbered : keys.zipIdx n = keys.zipIdx.map fun key => (key.1,n + key.2) := List.zipIdx_eq_map_add
    rw [numbered,List.map_map]
    exact List.map_congr_left fun key _ => by simp [Nat.add_comm]
  have whole : requestWords o keys = head ++ (if o.replace then [textReplace] else []) ++
      (if o.copy then [textCopy] else []) ++ credentialWords o ++ [textKeys] ++ keys := by
    simp [requestWords,optionWords,head]
  rw [whole,List.zipIdx_append,List.map_append,Nat.zero_add]
  simp only [fillArguments,shift]
  rw [← all.writes,← all.offset]

theorem countWords : argumentCount o keys = (requestWords o keys).length + spare o := by
  simp only [argumentCount,requestWords,optionWords,credentialWords,spare]
  cases o.replace <;> cases o.copy <;> cases o.auth <;> cases o.user <;> simp <;> omega

theorem requestSent : clusterManagerMigrateKeysInReply o keys = requestWords o keys ++ List.replicate (spare o) [] := by
  have filled := fillNext [] (requestWords o keys) (spare o)
  rw [List.length_nil,List.nil_append,List.nil_append] at filled
  rw [clusterManagerMigrateKeysInReply,fillWords,countWords,List.foldl_map]
  simp only [Prod.fst_swap,Prod.snd_swap,filled]
  simp

theorem filledIff : (fillArguments o keys).map Prod.fst = List.range (argumentCount o keys) ↔ spare o = 0 := by
  have positions : (fillArguments o keys).map Prod.fst = List.range (requestWords o keys).length := by
    rw [fillWords,List.map_map]
    simp [Function.comp_def,List.range_eq_range']
  rw [positions,countWords]
  constructor
  · intro same
    have length := congrArg List.length same
    rw [List.length_range,List.length_range] at length
    omega
  · intro none_
    rw [none_]
    rfl

end vector

section read

variable (key : Bytes) (o : MigrateOptions) (rest : List Bytes)

theorem loopCopy : optionLoop key o (textCopy :: rest) = optionLoop key { o with copy := true } rest := by
  rw [optionLoop.eq_def]
  exact if_pos (by decide)

theorem loopReplace : optionLoop key o (textReplace :: rest) = optionLoop key { o with replace := true } rest := by
  rw [optionLoop.eq_def]
  exact (if_neg (by decide)).trans (if_pos (by decide))

theorem loopAuth (password : Bytes) :
    optionLoop key o (textAuth :: password :: rest) = optionLoop key { o with password := some password } rest := by
  rw [optionLoop.eq_def]
  exact (if_neg (by decide)).trans ((if_neg (by decide)).trans (if_pos (by decide)))

theorem loopAuth2 (username password : Bytes) : optionLoop key o (textAuth2 :: username :: password :: rest) =
    optionLoop key { o with username := some username, password := some password } rest := by
  rw [optionLoop.eq_def]
  exact (if_neg (by decide)).trans ((if_neg (by decide)).trans ((if_neg (by decide)).trans (if_pos (by decide))))

theorem loopKeys : optionLoop [] o (textKeys :: rest) = .ok (o,some rest) := by
  rw [optionLoop.eq_def]
  exact (if_neg (by decide)).trans ((if_neg (by decide)).trans ((if_neg (by decide)).trans ((if_neg (by decide)).trans
    ((if_pos (by decide)).trans (if_neg (by decide))))))

/-- The loop takes the option words for what they are and stops at KEYS, whatever the credentials say. -/
theorem optionsRead (o : Settings) (rest : List Bytes) :
    optionLoop [] ⟨false,false,none,none⟩ (optionWords o ++ textKeys :: rest) =
      .ok (⟨o.copy,o.replace,o.auth.bind fun _ => o.user.map cstr,o.auth.map cstr⟩,some rest) := by
  have credentials (read : MigrateOptions) (none_ : read.username = none ∧ read.password = none) :
      optionLoop [] read (credentialWords o ++ textKeys :: rest) =
        .ok ({ read with
          username := o.auth.bind fun _ => o.user.map cstr
          password := o.auth.map cstr },some rest) := by
    rw [credentialWords]
    cases o.auth with
    | none =>
      obtain ⟨_,_,u,p⟩ := read
      obtain ⟨rfl,rfl⟩ : u = none ∧ p = none := none_
      exact loopKeys _ rest
    | some auth =>
      cases o.user with
      | none =>
        obtain ⟨_,_,u,p⟩ := read
        obtain ⟨rfl,rfl⟩ : u = none ∧ p = none := none_
        exact (loopAuth [] _ _ _).trans (loopKeys _ rest)
      | some user => exact (loopAuth2 [] _ _ _ _).trans (loopKeys _ rest)
  rw [optionWords,List.append_assoc,List.append_assoc]
  cases replace : o.replace <;> cases copy : o.copy <;>
    simp only [Bool.false_eq_true,if_false,if_true,List.nil_append,List.cons_append,loopReplace,loopCopy] <;>
    exact credentials _ ⟨rfl,rfl⟩

theorem requestRead (o : Settings) (keys : List Bytes) :
    migrateCommand (clusterManagerMigrateKeysInReply o keys) =
      (getLong (shortText o.timeout)).map fun timeout =>
        ⟨⟨o.copy,o.replace,o.auth.bind fun _ => o.user.map cstr,o.auth.map cstr⟩,timeout,0,
          keys ++ List.replicate (spare o) []⟩ := by
  have words : clusterManagerMigrateKeysInReply o keys =
      [textMigrate,cstr o.ip,shortText o.port,[],[48],shortText o.timeout] ++
        (optionWords o ++ textKeys :: (keys ++ List.replicate (spare o) [])) := by
    rw [requestSent,requestWords]
    simp
  have zero : getLong [48] = .ok 0 := rfl
  rw [words,migrateCommand]
  simp only [List.cons_append,List.nil_append,List.getD_cons_succ,List.getD_cons_zero,List.drop_succ_cons,List.drop_zero,
    optionsRead,zero,bind,Except.bind]
  cases getLong (shortText o.timeout) <;> rfl

/-- The request and its reading agree exactly when a user comes with a password and the timeout
fits nine characters. -/
theorem migrateRequest (o : Settings) (keys : List Bytes) :
    Agrees o keys ↔ (o.user.isSome → o.auth.isSome) ∧ -10 ^ 8 < o.timeout ∧ o.timeout < 10 ^ 9 := by
  have low : -2 ^ 63 ≤ o.timeout := by have := o.int.1; omega
  have high : o.timeout < 2 ^ 63 := by have := o.int.2; omega
  have pair : spare o = 0 ↔ (o.user.isSome → o.auth.isSome) := by
    rw [spare]
    cases o.user <;> cases o.auth <;> simp
  rw [← shortIff low high,← pair]
  constructor
  · rintro ⟨filled,read⟩
    refine ⟨(filledIff o keys).mp filled,?_⟩
    rw [requestRead,getLong] at read
    split at read
    · rename_i value found
      have same : value = o.timeout := congrArg MigrateRead.timeout (Except.ok.inj read)
      rw [found,same]
    · contradiction
  · rintro ⟨full,found⟩
    refine ⟨(filledIff o keys).mpr full,?_⟩
    have user : (o.auth.bind fun _ => o.user.map cstr) = o.user.map cstr := by
      have both := pair.mp full
      cases password : o.auth with
      | some auth => rfl
      | none =>
        cases name : o.user with
        | none => rfl
        | some user => simp [password,name] at both
    rw [requestRead,getLong,found,full,user]
    simp [Except.map]

end read

def bareSettings : Settings := ⟨[],6379,false,true,some textKeys,none,60000,by decide⟩

theorem migrateRequestShown : Agrees bareSettings [textKeys,textCopy,[0]] :=
  (migrateRequest bareSettings [textKeys,textCopy,[0]]).mpr (by decide)

/-- A user without a password: one more key, which is empty, and no user. -/
theorem userWithoutPassword : ∃ o : Settings, o.user = some [97] ∧ o.auth = none ∧ o.timeout = 60000 ∧
    migrateCommand (clusterManagerMigrateKeysInReply o [[107]]) =
      .ok ⟨⟨false,false,none,none⟩,60000,0,[[107],[]]⟩ ∧ ¬ Agrees o [[107]] := by
  refine ⟨⟨[],6379,false,false,none,some [97],60000,by decide⟩,rfl,rfl,rfl,by decide,fun agrees => ?_⟩
  exact absurd agrees.filled (by decide)

end HpuCache.MigrateRequest
