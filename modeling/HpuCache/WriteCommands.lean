import HpuCache.Coalescing
import HpuCache.CommandTable
import HpuCache.GroupCommands

/-! Some write commands on the contents of a slot: overwriting, accumulating, and with
several keys. Each one has a footprint, and those that assign hide what was there. -/
namespace HpuCache.WriteCommands
open ByteText Coalescing GroupCommands CommandTable

inductive Value where
  | string (text : Bytes)
  | list (items : List Bytes)
  | hash (fields : List (Bytes × Bytes))
  deriving DecidableEq, Repr

abbrev Contents := Bytes → Option Value

def textLpush : Bytes := [108,112,117,115,104]
def textHmset : Bytes := [104,109,115,101,116]

inductive Write where
  | set (key value : Bytes)
  | append (key value : Bytes)
  | incr (key : Bytes)
  | lpush (key : Bytes) (items : List Bytes)
  | hmset (key : Bytes) (fields : List (Bytes × Bytes))
  | mset (pairs : List (Bytes × Bytes))
  | del (keys : List Bytes)
  deriving DecidableEq, Repr

def pairsOf : List Bytes → Option (List (Bytes × Bytes))
  | [] => some []
  | [_] => none
  | a :: b :: rest => (pairsOf rest).map (fun pairs => (a,b) :: pairs)

/-- `none` is a name or a number of arguments that none of these commands takes. -/
def parse : List Bytes → Option Write
  | [] => none
  | name :: args =>
    if strcasecmpEqual name textSet then
      match args with
      | [key,value] => some (.set key value)
      | _ => none
    else if strcasecmpEqual name textAppend then
      match args with
      | [key,value] => some (.append key value)
      | _ => none
    else if strcasecmpEqual name textIncr then
      match args with
      | [key] => some (.incr key)
      | _ => none
    else if strcasecmpEqual name textLpush then
      match args with
      | key :: item :: items => some (.lpush key (item :: items))
      | _ => none
    else if strcasecmpEqual name textHmset then
      match args with
      | key :: field :: value :: more => (pairsOf more).map (fun pairs => .hmset key ((field,value) :: pairs))
      | _ => none
    else if strcasecmpEqual name textMset then
      match args with
      | key :: value :: more => (pairsOf more).map (fun pairs => .mset ((key,value) :: pairs))
      | _ => none
    else if strcasecmpEqual name textDel then
      match args with
      | key :: keys => some (.del (key :: keys))
      | _ => none
    else none

/-- The text of a `long long`, without a sign, leading zeros or blanks that do not belong. -/
def string2ll (s : Bytes) : Option Int :=
  let negative := s.headD 0 == 45
  let body := if negative then s.tail else s
  let value : Int := digitsValue 0 body
  if s = [48] then some 0
  else if 49 ≤ body.headD 0 && body.all isDigit then
    if negative then (if value ≤ 2^63 then some (-value) else none)
    else if value ≤ 2^63 - 1 then some value else none
  else none

def natText (n : Nat) : Bytes := (Nat.toDigits 10 n).map (fun c => UInt8.ofNat c.toNat)
def ll2string (v : Int) : Bytes := if v < 0 then 45 :: natText v.natAbs else natText v.natAbs

def protoMaxBulkLen : Nat := 512 * 1024 * 1024

/-- A value of another type, or one that would grow too long, stays as it is. -/
def appended (text : Bytes) : Option Value → Option Value
  | none => some (.string text)
  | some (.string old) =>
    if old.length + text.length > protoMaxBulkLen then some (.string old) else some (.string (old ++ text))
  | other => other

def incremented : Option Value → Option Value
  | none => some (.string (ll2string 1))
  | some (.string old) =>
    match string2ll old with
    | none => some (.string old)
    | some value => if value > 2^63 - 1 - 1 then some (.string old) else some (.string (ll2string (value + 1)))
  | other => other

def pushed (items : List Bytes) : Option Value → Option Value
  | none => some (.list items.reverse)
  | some (.list old) => some (.list (items.reverse ++ old))
  | other => other

def hashTypeSet (fields : List (Bytes × Bytes)) (e : Bytes × Bytes) : List (Bytes × Bytes) :=
  if fields.any (fun f => f.1 = e.1) then fields.map (fun f => if f.1 = e.1 then e else f) else fields ++ [e]

def hashed (pairs : List (Bytes × Bytes)) : Option Value → Option Value
  | none => some (.hash (pairs.foldl hashTypeSet []))
  | some (.hash old) => some (.hash (pairs.foldl hashTypeSet old))
  | other => other

/-- Keys are assigned one after the other; `none` deletes. -/
def assignAll (entries : List (Bytes × Option Value)) (contents : Contents) : Contents :=
  entries.foldl (fun contents e => Function.update contents e.1 e.2) contents

def changeAt (key : Bytes) (change : Option Value → Option Value) (contents : Contents) : Contents :=
  Function.update contents key (change (contents key))

def Write.exec : Write → Contents → Contents
  | .set key value => assignAll [(key,some (.string value))]
  | .append key value => changeAt key (appended value)
  | .incr key => changeAt key incremented
  | .lpush key items => changeAt key (pushed items)
  | .hmset key fields => changeAt key (hashed fields)
  | .mset pairs => assignAll (pairs.map (fun e => (e.1,some (.string e.2))))
  | .del keys => assignAll (keys.map (fun key => (key,none)))

def Write.keys : Write → List Bytes
  | .set key _ => [key]
  | .append key _ => [key]
  | .incr key => [key]
  | .lpush key _ => [key]
  | .hmset key _ => [key]
  | .mset pairs => pairs.map Prod.fst
  | .del keys => keys

/-- The commands that assign, whatever was there. -/
def Write.assigns : Write → Bool
  | .set _ _ => true
  | .mset _ => true
  | .del _ => true
  | _ => false

def execWrite (argv : List Bytes) (contents : Contents) : Contents :=
  match parse argv with
  | some write => write.exec contents
  | none => contents

example : runAll execWrite [[textSet,letterK,[49,57]],[textIncr,letterK],[textAppend,letterK,letterA]] (fun _ => none)
    letterK = some (.string [50,48,97]) := by decide

theorem assignOther {entries : List (Bytes × Option Value)} {key : Bytes} (other : key ∉ entries.map Prod.fst)
    (contents : Contents) : assignAll entries contents key = contents key := by
  induction entries generalizing contents with
  | nil => rfl
  | cons e rest ih =>
    simp only [List.map_cons,List.mem_cons,not_or] at other
    have tail : assignAll (e :: rest) contents = assignAll rest (Function.update contents e.1 e.2) := rfl
    rw [tail,ih other.2,Function.update_of_ne other.1]

theorem assignSame {entries : List (Bytes × Option Value)} {key : Bytes} (member : key ∈ entries.map Prod.fst)
    (s t : Contents) : assignAll entries s key = assignAll entries t key := by
  induction entries generalizing s t with
  | nil => contradiction
  | cons e rest ih =>
    have tail : ∀ contents, assignAll (e :: rest) contents = assignAll rest (Function.update contents e.1 e.2) :=
      fun _ => rfl
    rw [tail,tail]
    by_cases later : key ∈ rest.map Prod.fst
    · exact ih later _ _
    · have own : key = e.1 := by
        rcases List.mem_cons.mp member with own | inside
        · exact own
        · exact absurd inside later
      rw [assignOther later,assignOther later,own,Function.update_self,Function.update_self]

theorem execShape (w : Write) :
    (w.assigns = true ∧ ∃ entries, w.exec = assignAll entries ∧ entries.map Prod.fst = w.keys) ∨
    (w.assigns = false ∧ ∃ key change, w.exec = changeAt key change ∧ w.keys = [key]) := by
  cases w with
  | set key value => exact .inl ⟨rfl,_,rfl,rfl⟩
  | mset pairs => exact .inl ⟨rfl,_,rfl,by simp [Write.keys]⟩
  | del keys => exact .inl ⟨rfl,_,rfl,by simp [Write.keys,Function.comp_def]⟩
  | _ => exact .inr ⟨rfl,_,_,rfl,rfl⟩

theorem writeFrame (w : Write) (contents : Contents) {key : Bytes} (other : key ∉ w.keys) :
    w.exec contents key = contents key := by
  rcases execShape w with ⟨_,entries,shape,keys⟩ | ⟨_,own,change,shape,keys⟩
  · rw [shape,assignOther (keys ▸ other)]
  · rw [keys,List.mem_singleton] at other
    rw [shape,changeAt,Function.update_of_ne other]

theorem writeReads (w : Write) {s t : Contents} (same : ∀ key ∈ w.keys, s key = t key) {key : Bytes}
    (member : key ∈ w.keys) : w.exec s key = w.exec t key := by
  rcases execShape w with ⟨_,entries,shape,keys⟩ | ⟨_,own,change,shape,keys⟩
  · rw [shape]
    exact assignSame (keys ▸ member) s t
  · have here := same key member
    rw [keys,List.mem_singleton] at member
    subst member
    rw [shape,changeAt,changeAt,Function.update_self,Function.update_self,here]

def Touches (argv : List Bytes) (key : Bytes) : Prop := ∃ w, parse argv = some w ∧ key ∈ w.keys

def writeFootprint : Footprint (List Bytes) Bytes (Option Value) where
  exec := execWrite
  touches := Touches
  frame := by
    intro argv contents key other
    cases parsed : parse argv with
    | none => simp only [execWrite,parsed]
    | some w =>
      simp only [execWrite,parsed]
      exact writeFrame w contents (fun member => other ⟨w,parsed,member⟩)
  reads := by
    intro argv s t same key touched
    obtain ⟨w,parsed,member⟩ := touched
    simp only [execWrite,parsed]
    exact writeReads w (fun k inside => same k ⟨w,parsed,inside⟩) member

theorem assignsOverwrite {argv : List Bytes} {w : Write} (parsed : parse argv = some w)
    (assigns : w.assigns = true) : writeFootprint.Overwrites argv := by
  rintro s t key ⟨w',parsed',member⟩
  cases Option.some.inj (parsed.symm.trans parsed')
  have run : ∀ contents, writeFootprint.exec argv contents = w.exec contents := by
    intro contents
    change execWrite argv contents = _
    simp only [execWrite,parsed]
  rcases execShape w with ⟨_,entries,shape,keys⟩ | ⟨changes,_⟩
  · rw [run,run,shape]
    exact assignSame (keys ▸ member) s t
  · rw [assigns] at changes
    contradiction

end HpuCache.WriteCommands
