import HpuCache.ChainedTable
import HpuCache.KeyedDict
import HpuCache.ScanOrder
import Mathlib.Data.List.Nodup
import Mathlib.Logic.Function.Basic

/-! The dictionaries of the server: chained tables of two to the power of any number of chains, of
which there are two while a dictionary is moved, a chain at a time, to a table of another size. -/
namespace HpuCache.IncrementalDict
open ChainedTable ScanOrder

structure Dictht (α : Type) where
  table : List (List α)
  used : Nat

namespace Dictht
variable {α : Type}

def size (t : Dictht α) : Nat := t.table.length

/-- A table that was never allocated. -/
def reset : Dictht α := ⟨[],0⟩

def sizemask (t : Dictht α) : BitVec 64 := BitVec.ofNat 64 (t.size - 1)

/-- The index of a hash: `hash & sizemask`. -/
def index (t : Dictht α) (hash : BitVec 64) : Nat := (hash &&& t.sizemask).toNat

end Dictht

structure Dict (κ β : Type) where
  ht0 : Dictht (κ × β)
  ht1 : Dictht (κ × β)
  rehashidx : Option Nat
  -- An `int16_t`.
  pauserehash : BitVec 16

/-- What decides whether a dictionary may grow: the global switch, and what its type allows at the time. -/
structure Resizing where
  dictCanResize : Bool
  expandAllowed : Bool
  deriving DecidableEq, Repr

def dictHtInitialSize : Nat := 4
def dictForceResizeRatio : Nat := 5
def longMax : Nat := 2 ^ 63 - 1

/-- The chains that a block can have, at eight bytes a chain: the next power of two has a byte count
that is zero in 64 bits. -/
def maxChains : Nat := 2 ^ 60

inductive KeyIndex (κ β : Type) where
  | refused
  | existing (e : κ × β)
  | free (index : Nat)

inductive Added (κ β : Type) where
  | refused
  | existing (e : κ × β)
  | added

section model
variable {κ β : Type}

def Dict.isRehashing (d : Dict κ β) : Bool := d.rehashidx.isSome
def Dict.size (d : Dict κ β) : Nat := d.ht0.used + d.ht1.used
def dictCreate : Dict κ β := ⟨.reset,.reset,none,0⟩

/-- Doubled until it is large enough; from the initial size on there is no need for more than 61 times. -/
def nextPowerLoop (size : Nat) : Nat → Nat → Nat
  | 0, i => i
  | n + 1, i => if i ≥ size then i else nextPowerLoop size n (i * 2)

def dictNextPower (size : Nat) : Nat :=
  if size ≥ longMax then longMax + 1 else nextPowerLoop size 61 dictHtInitialSize

def dictExpand (d : Dict κ β) (size : Nat) : Dict κ β × Bool :=
  if d.isRehashing ∨ d.ht0.used > size then (d,false)
  else
    let realsize := dictNextPower size
    if realsize = d.ht0.size then (d,false)
    else
      let n : Dictht (κ × β) := ⟨List.replicate realsize [],0⟩
      if d.ht0.table = [] then ({ d with ht0 := n },true) else ({ d with ht1 := n, rehashidx := some 0 },true)

def dictResize (env : Resizing) (d : Dict κ β) : Dict κ β × Bool :=
  if env.dictCanResize = false ∨ d.isRehashing then (d,false)
  else dictExpand d (if d.ht0.used < dictHtInitialSize then dictHtInitialSize else d.ht0.used)

/-- Over empty chains, until none is left of the visits: the next chain and the visits left. -/
def skipEmpty (table : List (List (κ × β))) : Nat → Nat → Nat × Nat
  | 0, idx => (idx,0)
  | visits + 1, idx => if chain table idx = [] then skipEmpty table visits (idx + 1) else (idx,visits + 1)

variable (hash : κ → BitVec 64)

/-- One entry to the head of its chain in the new table. -/
def moveEntry (d : Dict κ β) (de : κ × β) : Dict κ β :=
  let h := d.ht1.index (hash de.1)
  { d with ht1 := ⟨d.ht1.table.set h (de :: chain d.ht1.table h),d.ht1.used + 1⟩,
           ht0 := { d.ht0 with used := d.ht0.used - 1 } }

def moveBucket (d : Dict κ β) (idx : Nat) : Dict κ β :=
  let moved := (chain d.ht0.table idx).foldl (moveEntry hash) d
  { moved with ht0 := { moved.ht0 with table := moved.ht0.table.set idx [] }, rehashidx := some (idx + 1) }

/-- The loop of `dictRehash`, and whether it returned for too many empty chains. -/
def rehashLoop : Nat → Nat → Nat → Dict κ β → Dict κ β × Bool
  | 0, _, _, d => (d,false)
  | n + 1, emptyVisits, idx, d =>
    if d.ht0.used = 0 then (d,false)
    else
      let skipped := skipEmpty d.ht0.table emptyVisits idx
      if skipped.2 = 0 then ({ d with rehashidx := some skipped.1 },true)
      else rehashLoop n skipped.2 (skipped.1 + 1) (moveBucket hash d skipped.1)

def dictRehash (d : Dict κ β) (n : Nat) : Dict κ β × Bool :=
  match d.rehashidx with
  | none => (d,false)
  | some idx =>
    let looped := rehashLoop hash n (n * 10) idx d
    if looped.2 then (looped.1,true)
    else if looped.1.ht0.used = 0 then
      ({ looped.1 with ht0 := looped.1.ht1, ht1 := .reset, rehashidx := none },false)
    else (looped.1,true)

def dictRehashStep (d : Dict κ β) : Dict κ β := if d.pauserehash = 0 then (dictRehash hash d 1).1 else d

/-- The step that lookups and updates make. -/
def stepIfRehashing (d : Dict κ β) : Dict κ β := if d.isRehashing then dictRehashStep hash d else d

def dictExpandIfNeeded (env : Resizing) (d : Dict κ β) : Dict κ β × Bool :=
  if d.isRehashing then (d,true)
  else if d.ht0.size = 0 then dictExpand d dictHtInitialSize
  else if d.ht0.used ≥ d.ht0.size ∧ (env.dictCanResize ∨ d.ht0.used / d.ht0.size > dictForceResizeRatio) ∧ env.expandAllowed then
    dictExpand d (d.ht0.used + 1)
  else (d,true)

variable [DecidableEq κ]

def searchChain (t : Dictht (κ × β)) (key : κ) : Option (κ × β) :=
  (chain t.table (t.index (hash key))).find? fun e => e.1 = key

def search (d : Dict κ β) (key : κ) : Option (κ × β) :=
  match searchChain hash d.ht0 key with
  | some e => some e
  | none => if d.isRehashing then searchChain hash d.ht1 key else none

def dictKeyIndex (env : Resizing) (d : Dict κ β) (key : κ) : Dict κ β × KeyIndex κ β :=
  let expanded := dictExpandIfNeeded env d
  if expanded.2 = false then (expanded.1,.refused)
  else
    let d := expanded.1
    match search hash d key with
    | some e => (d,.existing e)
    | none => (d,.free (if d.isRehashing then d.ht1.index (hash key) else d.ht0.index (hash key)))

def linkEntry (t : Dictht (κ × β)) (index : Nat) (e : κ × β) : Dictht (κ × β) :=
  ⟨t.table.set index (e :: chain t.table index),t.used + 1⟩

/-- With the value that the caller stores in the new entry. -/
def dictAddRaw (env : Resizing) (d : Dict κ β) (key : κ) (val : β) : Dict κ β × Added κ β :=
  let found := dictKeyIndex hash env (stepIfRehashing hash d) key
  match found.2 with
  | .refused => (found.1,.refused)
  | .existing e => (found.1,.existing e)
  | .free index =>
    let d := found.1
    if d.isRehashing then ({ d with ht1 := linkEntry d.ht1 index (key,val) },.added)
    else ({ d with ht0 := linkEntry d.ht0 index (key,val) },.added)

def dictAdd (env : Resizing) (d : Dict κ β) (key : κ) (val : β) : Dict κ β × Bool :=
  let raw := dictAddRaw hash env d key val
  match raw.2 with
  | .added => (raw.1,true)
  | _ => (raw.1,false)

def setFirst (key : κ) (val : β) : List (κ × β) → List (κ × β)
  | [] => []
  | e :: rest => if e.1 = key then (e.1,val) :: rest else e :: setFirst key val rest

def setIn (t : Dictht (κ × β)) (key : κ) (val : β) : Dictht (κ × β) :=
  let idx := t.index (hash key)
  { t with table := t.table.set idx (setFirst key val (chain t.table idx)) }

/-- The value of the entry that the search of the key finds. -/
def dictSetVal (d : Dict κ β) (key : κ) (val : β) : Dict κ β :=
  if (searchChain hash d.ht0 key).isSome then { d with ht0 := setIn hash d.ht0 key val }
  else { d with ht1 := setIn hash d.ht1 key val }

/-- `none` where the code would read the entry of a key that was refused. -/
def dictReplace (env : Resizing) (d : Dict κ β) (key : κ) (val : β) : Option (Dict κ β × Bool) :=
  let raw := dictAddRaw hash env d key val
  match raw.2 with
  | .added => some (raw.1,true)
  | .existing _ => some (dictSetVal hash raw.1 key val,false)
  | .refused => none

def unlinkIn (t : Dictht (κ × β)) (key : κ) : Dictht (κ × β) :=
  let idx := t.index (hash key)
  ⟨t.table.set idx ((chain t.table idx).eraseP fun e => e.1 = key),t.used - 1⟩

def dictGenericDelete (d : Dict κ β) (key : κ) : Dict κ β × Option (κ × β) :=
  if d.ht0.used = 0 ∧ d.ht1.used = 0 then (d,none)
  else
    let d := stepIfRehashing hash d
    match searchChain hash d.ht0 key with
    | some e => ({ d with ht0 := unlinkIn hash d.ht0 key },some e)
    | none =>
      if d.isRehashing then
        match searchChain hash d.ht1 key with
        | some e => ({ d with ht1 := unlinkIn hash d.ht1 key },some e)
        | none => (d,none)
      else (d,none)

def dictFind (d : Dict κ β) (key : κ) : Dict κ β × Option (κ × β) :=
  if d.size = 0 then (d,none)
  else
    let d := stepIfRehashing hash d
    (d,search hash d key)

def dictEmpty : Dict κ β := ⟨.reset,.reset,none,0⟩

end model

section tables
variable {κ β : Type} (hash : κ → BitVec 64)

structure WellTable (t : Dictht (κ × β)) : Prop where
  power : t.table ≠ [] → ∃ e, e ≤ 60 ∧ t.table.length = 2 ^ e
  placed : Placed (fun e => t.index (hash e.1)) t.table
  count : t.used = t.table.flatten.length

variable {hash}

theorem indexCell {α : Type} {t : Dictht α} {e : Nat} (size : t.table.length = 2 ^ e) (small : e ≤ 63) (h : BitVec 64) :
    t.index h = cell h e := by
  rw [Dictht.index,Dictht.sizemask,Dictht.size,size]
  exact cellMask (by omega) h

theorem WellTable.inside {t : Dictht (κ × β)} (well : WellTable hash t) (some : t.table ≠ []) (h : BitVec 64) :
    t.index h < t.table.length := by
  obtain ⟨e,small,size⟩ := well.power some
  rw [indexCell size (by omega),size]
  exact cellBound h e

theorem indexSet {α : Type} (t : Dictht α) (i used : Nat) (c : List α) (h : BitVec 64) :
    (⟨t.table.set i c,used⟩ : Dictht α).index h = t.index h := by
  rw [Dictht.index,Dictht.index,Dictht.sizemask,Dictht.sizemask,Dictht.size,Dictht.size,List.length_set]

theorem resetWell : WellTable hash (Dictht.reset : Dictht (κ × β)) :=
  ⟨fun some => absurd rfl some,fun _ _ mem => by simp [Dictht.reset,chain] at mem,rfl⟩

theorem freshWell {e : Nat} (small : e ≤ 60) : WellTable hash (⟨List.replicate (2 ^ e) [],0⟩ : Dictht (κ × β)) :=
  ⟨fun _ => ⟨e,small,List.length_replicate⟩,placedEmpty _ _,by rw [flattenEmpty]; rfl⟩

/-- Another chain in place of one, with the count to it. -/
theorem WellTable.set {t : Dictht (κ × β)} (well : WellTable hash t) {i used : Nat} {c : List (κ × β)}
    (inside : i < t.table.length) (fits : ∀ e ∈ c, t.index (hash e.1) = i)
    (count : used + (chain t.table i).length = t.used + c.length) : WellTable hash ⟨t.table.set i c,used⟩ where
  power _ := by
    rw [List.length_set]
    exact well.power (List.length_pos_iff.mp (by omega))
  placed := by
    simp only [indexSet]
    exact placedSet well.placed inside fits
  count := by
    have before := (flattenChain inside).length_eq
    have after := (flattenSet c inside).length_eq
    rw [List.length_append] at before after
    have counted := well.count
    change used = (t.table.set i c).flatten.length
    omega

theorem chainFits {t : Dictht (κ × β)} (well : WellTable hash t) {i : Nat} :
    ∀ e ∈ chain t.table i, t.index (hash e.1) = i := well.placed i

theorem linkWell {t : Dictht (κ × β)} (well : WellTable hash t) (some : t.table ≠ []) (e : κ × β) :
    WellTable hash (linkEntry t (t.index (hash e.1)) e) ∧
      (linkEntry t (t.index (hash e.1)) e).table.flatten.Perm (e :: t.table.flatten) := by
  have inside := well.inside some (hash e.1)
  constructor
  · refine well.set inside (fun x mem => ?_) ?_
    · rcases List.mem_cons.mp mem with rfl | old
      · rfl
      · exact chainFits well x old
    · rw [List.length_cons]
      omega
  · exact (flattenSet _ inside).trans (.cons e (flattenChain inside).symm)

section search
variable [DecidableEq κ]

theorem searchSome {t : Dictht (κ × β)} {key : κ} {e : κ × β} (found : searchChain hash t key = some e) :
    e ∈ chain t.table (t.index (hash key)) ∧ e ∈ t.table.flatten ∧ e.1 = key := by
  have here := List.mem_of_find?_eq_some found
  exact ⟨here,chainMem here,by simpa using List.find?_some found⟩

theorem searchNone {t : Dictht (κ × β)} (well : WellTable hash t) {key : κ} :
    searchChain hash t key = none ↔ ∀ e ∈ t.table.flatten, e.1 ≠ key := by
  rw [searchChain,List.find?_eq_none]
  constructor
  · rintro none e mem rfl
    exact none e ((placedMem well.placed e).mp mem) (by simp)
  · intro none e mem same
    exact none e (chainMem mem) (by simpa using same)

theorem unlinkWell {t : Dictht (κ × β)} (well : WellTable hash t) {key : κ} {e : κ × β}
    (found : searchChain hash t key = some e) :
    WellTable hash (unlinkIn hash t key) ∧ t.table.flatten.Perm (e :: (unlinkIn hash t key).table.flatten) := by
  obtain ⟨here,_,same⟩ := searchSome found
  have inside := chainInside (List.ne_nil_of_mem here)
  have parts : (chain t.table (t.index (hash key))).Perm
      (e :: (chain t.table (t.index (hash key))).eraseP fun x => x.1 = key) := by
    obtain ⟨_,before,after,whole,others⟩ := List.find?_eq_some_iff_append.mp found
    rw [whole,List.eraseP_append_right _ (by simpa using others),List.eraseP_cons_of_pos (by simpa using same)]
    exact List.perm_middle
  have positive : 0 < t.used := by
    rw [well.count]
    exact List.length_pos_of_mem (chainMem here)
  constructor
  · refine well.set inside (fun x mem => chainFits well x (List.mem_of_mem_eraseP mem)) ?_
    have less := parts.length_eq
    rw [List.length_cons] at less
    omega
  · exact (flattenChain inside).trans ((parts.append_right _).trans (.cons e (flattenSet _ inside).symm))

theorem setFirstPerm {key : κ} {val : β} {c : List (κ × β)} {e : κ × β} (found : c.find? (fun x => x.1 = key) = some e) :
    ∃ rest, c.Perm (e :: rest) ∧ (setFirst key val c).Perm ((e.1,val) :: rest) := by
  induction c with
  | nil => contradiction
  | cons x rest ih =>
    by_cases here : x.1 = key
    · rw [List.find?_cons_of_pos (by simpa using here)] at found
      obtain rfl := Option.some.inj found
      refine ⟨rest,.refl _,?_⟩
      rw [setFirst,if_pos here]
    · rw [List.find?_cons_of_neg (by simpa using here)] at found
      obtain ⟨others,before,after⟩ := ih found
      refine ⟨x :: others,(before.cons x).trans (.swap _ _ _),?_⟩
      rw [setFirst,if_neg here]
      exact (after.cons x).trans (.swap _ _ _)

theorem setWell {t : Dictht (κ × β)} (well : WellTable hash t) {key : κ} {e : κ × β} (val : β)
    (found : searchChain hash t key = some e) :
    WellTable hash (setIn hash t key val) ∧
      ∃ rest, t.table.flatten.Perm (e :: rest) ∧ (setIn hash t key val).table.flatten.Perm ((e.1,val) :: rest) := by
  obtain ⟨here,_,same⟩ := searchSome found
  have inside := chainInside (List.ne_nil_of_mem here)
  obtain ⟨rest,before,after⟩ := @setFirstPerm κ β _ key val _ e found
  constructor
  · refine well.set inside (fun x mem => ?_) ?_
    · rcases List.mem_cons.mp (after.mem_iff.mp mem) with rfl | old
      · exact congrArg (fun k => t.index (hash k)) same
      · exact chainFits well x (before.mem_iff.mpr (List.mem_cons_of_mem _ old))
    · rw [after.length_eq,before.length_eq,List.length_cons,List.length_cons]
  · refine ⟨rest ++ (t.table.set (t.index (hash key)) []).flatten,?_,?_⟩
    · exact (flattenChain inside).trans (before.append_right _)
    · exact (flattenSet _ inside).trans (after.append_right _)

end search

end tables

section whole
variable {κ β : Type} (hash : κ → BitVec 64)

def items (d : Dict κ β) : List (κ × β) := d.ht0.table.flatten ++ d.ht1.table.flatten

structure Well (d : Dict κ β) : Prop where
  first : WellTable hash d.ht0
  second : WellTable hash d.ht1
  keys : ((items d).map Prod.fst).Nodup
  idle : d.rehashidx = none → d.ht1 = .reset
  busy : ∀ r, d.rehashidx = some r → d.ht0.table ≠ [] ∧ d.ht1.table ≠ [] ∧ ∀ i < r, chain d.ht0.table i = []

/-- The same entries in tables that are as they should be. -/
structure Kept (d d' : Dict κ β) : Prop where
  well : Well hash d'
  same : (items d').Perm (items d)

variable {hash}

theorem Kept.trans {a b c : Dict κ β} (first : Kept hash a b) (second : Kept hash b c) : Kept hash a c :=
  ⟨second.well,second.same.trans first.same⟩

theorem keptSelf {d : Dict κ β} (well : Well hash d) : Kept hash d d := ⟨well,.refl _⟩

theorem Well.size {d : Dict κ β} (well : Well hash d) : d.size = (items d).length := by
  rw [Dict.size,well.first.count,well.second.count,items,List.length_append]

theorem createWell : Well hash (dictCreate : Dict κ β) :=
  ⟨resetWell,resetWell,.nil,fun _ => rfl,fun _ busy => by contradiction⟩

section rehash

theorem skipSpec (table : List (List (κ × β))) (visits idx : Nat) :
    idx ≤ (skipEmpty table visits idx).1 ∧ (∀ i, idx ≤ i → i < (skipEmpty table visits idx).1 → chain table i = []) ∧
      ((skipEmpty table visits idx).2 ≠ 0 → chain table (skipEmpty table visits idx).1 ≠ []) := by
  induction visits generalizing idx with
  | zero => exact ⟨Nat.le_refl _,fun i low high => absurd high (Nat.not_lt.mpr low),fun none => absurd rfl none⟩
  | succ visits ih =>
    rw [skipEmpty]
    split
    · rename_i none
      obtain ⟨more,empty,stop⟩ := ih (idx + 1)
      refine ⟨by omega,fun i low high => ?_,stop⟩
      rcases Nat.eq_or_lt_of_le low with rfl | above
      · exact none
      · exact empty i above high
    · rename_i some
      exact ⟨Nat.le_refl _,fun i low high => absurd high (Nat.not_lt.mpr low),fun _ => some⟩

structure Moved (l : List (κ × β)) (d m : Dict κ β) : Prop where
  table : m.ht0.table = d.ht0.table
  used : m.ht0.used = d.ht0.used - l.length
  well : WellTable hash m.ht1
  some : m.ht1.table ≠ []
  grown : m.ht1.table.flatten.Perm (l ++ d.ht1.table.flatten)

theorem movedAll (l : List (κ × β)) {d : Dict κ β} (well : WellTable hash d.ht1) (some : d.ht1.table ≠ []) :
    @Moved κ β hash l d (l.foldl (moveEntry hash) d) := by
  induction l generalizing d with
  | nil => exact ⟨rfl,rfl,well,some,.refl _⟩
  | cons e rest ih =>
    obtain ⟨next,more⟩ := linkWell well some e
    have still : (moveEntry hash d e).ht1.table ≠ [] := mt (List.set_eq_nil_iff _ _).mp some
    have moved := @ih (moveEntry hash d e) next still
    refine ⟨moved.table,?_,moved.well,moved.some,?_⟩
    · have used := moved.used
      change _ = d.ht0.used - 1 - rest.length at used
      rw [List.foldl_cons,used,List.length_cons]
      omega
    · exact (moved.grown.trans (more.append_left rest)).trans List.perm_middle

theorem bucketKept {d : Dict κ β} (well : Well hash d) {r idx : Nat} (busy : d.rehashidx = some r)
    (empty : ∀ i < idx, chain d.ht0.table i = []) (full : chain d.ht0.table idx ≠ []) :
    Kept hash d (moveBucket hash d idx) := by
  obtain ⟨some0,some1,_⟩ := well.busy r busy
  have moved := movedAll (chain d.ht0.table idx) well.second some1
  have inside := chainInside full
  have left : (moveBucket hash d idx).ht0.table = d.ht0.table.set idx [] := congrArg (fun t => t.set idx []) moved.table
  have first : WellTable hash (moveBucket hash d idx).ht0 := by
    change WellTable hash ⟨_,_⟩
    rw [moved.table,moved.used]
    refine well.first.set inside (fun _ mem => by contradiction) ?_
    have more := (flattenChain inside).length_eq
    have count := well.first.count
    rw [List.length_append] at more
    rw [List.length_nil]
    omega
  have same : (items (moveBucket hash d idx)).Perm (items d) := by
    change (_ ++ _ : List (κ × β)).Perm _
    rw [left]
    refine (moved.grown.append_left _).trans ?_
    rw [← List.append_assoc]
    exact (List.perm_append_comm.trans (flattenChain inside).symm).append_right _
  refine ⟨⟨first,moved.well,(same.map Prod.fst).nodup_iff.mpr well.keys,fun none => by contradiction,?_⟩,same⟩
  rintro r' ⟨⟩
  rw [left]
  refine ⟨mt (List.set_eq_nil_iff _ _).mp some0,moved.some,fun i low => ?_⟩
  rw [chainSet _ _ _ inside]
  split
  · rfl
  · exact empty i (by omega)

theorem loopKept {n visits idx : Nat} {d : Dict κ β} (well : Well hash d) (busy : d.rehashidx = some idx) :
    Kept hash d (rehashLoop hash n visits idx d).1 ∧ (rehashLoop hash n visits idx d).1.rehashidx ≠ none := by
  induction n generalizing visits idx d with
  | zero => exact ⟨keptSelf well,by rw [rehashLoop,busy]; exact Option.some_ne_none _⟩
  | succ n ih =>
    rw [rehashLoop]
    split
    · exact ⟨keptSelf well,by rw [busy]; exact Option.some_ne_none _⟩
    · obtain ⟨ahead,skipped,stop⟩ := skipSpec d.ht0.table visits idx
      obtain ⟨some0,some1,behind⟩ := well.busy idx busy
      have empty : ∀ i < (skipEmpty d.ht0.table visits idx).1, chain d.ht0.table i = [] := by
        intro i low
        by_cases before : i < idx
        · exact behind i before
        · exact skipped i (by omega) low
      dsimp only
      split
      · refine ⟨⟨⟨well.first,well.second,well.keys,fun none => by contradiction,?_⟩,.refl _⟩,Option.some_ne_none _⟩
        rintro r ⟨⟩
        exact ⟨some0,some1,empty⟩
      · rename_i left
        have moved := bucketKept well busy empty (stop left)
        obtain ⟨later,still⟩ := @ih _ _ (moveBucket hash d _) moved.well rfl
        exact ⟨moved.trans later,still⟩

theorem rehashKept {d : Dict κ β} (well : Well hash d) (n : Nat) : Kept hash d (dictRehash hash d n).1 := by
  rw [dictRehash]
  split
  · exact keptSelf well
  · rename_i idx busy
    obtain ⟨kept,still⟩ := @loopKept κ β hash n (n * 10) idx d well busy
    simp only
    split
    · exact kept
    · split
      · rename_i drained
        have gone : (rehashLoop hash n (n * 10) idx d).1.ht0.table.flatten = [] := by
          rw [← List.length_eq_zero_iff,← kept.well.first.count,drained]
        have same : (items { (rehashLoop hash n (n * 10) idx d).1 with
            ht0 := (rehashLoop hash n (n * 10) idx d).1.ht1, ht1 := .reset, rehashidx := none }).Perm
            (items (rehashLoop hash n (n * 10) idx d).1) := by
          rw [items,items,gone]
          change ((rehashLoop hash n (n * 10) idx d).1.ht1.table.flatten ++ []).Perm _
          rw [List.append_nil,List.nil_append]
        exact kept.trans ⟨⟨kept.well.second,resetWell,(same.map Prod.fst).nodup_iff.mpr kept.well.keys,fun _ => rfl,
          fun _ busy => by contradiction⟩,same⟩
      · exact kept

theorem stepKept {d : Dict κ β} (well : Well hash d) : Kept hash d (stepIfRehashing hash d) := by
  rw [stepIfRehashing,dictRehashStep]
  split
  · split
    · exact rehashKept well 1
    · exact keptSelf well
  · exact keptSelf well

end rehash

section expand

/-- The loop stops at the first power that is large enough. -/
theorem nextPower (size n k : Nat) : ∃ e, nextPowerLoop size n (2 ^ k) = 2 ^ e ∧
    (size ≤ 2 ^ (k + n) → size ≤ 2 ^ e) ∧ ∀ m, k ≤ m → size ≤ 2 ^ m → e ≤ m := by
  induction n generalizing k with
  | zero => exact ⟨k,rfl,id,fun _ above _ => above⟩
  | succ n ih =>
    rw [nextPowerLoop]
    split
    · rename_i enough
      exact ⟨k,rfl,fun _ => enough,fun _ above _ => above⟩
    · rename_i less
      obtain ⟨e,result,enough,least⟩ := ih (k + 1)
      refine ⟨e,?_,fun fits => enough (by rwa [show k + 1 + n = k + (n + 1) by omega]),fun m above fits => ?_⟩
      · rw [← Nat.pow_succ]
        exact result
      · rcases Nat.eq_or_lt_of_le above with rfl | more
        · exact absurd fits less
        · exact least m more fits

theorem powerSpec {size : Nat} (fits : size ≤ maxChains) : ∃ e, e ≤ 60 ∧ dictNextPower size = 2 ^ e ∧ size ≤ 2 ^ e := by
  rw [maxChains] at fits
  rw [dictNextPower,if_neg (by rw [longMax]; omega)]
  obtain ⟨e,result,enough,least⟩ := nextPower size 61 2
  exact ⟨e,least 60 (by omega) fits,result,enough (by omega)⟩

theorem expandKept {d : Dict κ β} (well : Well hash d) {size : Nat} (fits : size ≤ maxChains) :
    Kept hash d (dictExpand d size).1 := by
  rw [dictExpand]
  split
  · exact keptSelf well
  · rename_i fine
    rw [not_or] at fine
    obtain ⟨e,small,power,_⟩ := powerSpec fits
    have idle : d.rehashidx = none := by
      cases moving : d.rehashidx with
      | none => rfl
      | some r => exact absurd (by rw [Dict.isRehashing,moving]; rfl) fine.1
    have second := well.idle idle
    have keys := well.keys
    simp only [power]
    split
    · exact keptSelf well
    · split
      · rename_i unset
        have empty : items d = [] := by
          rw [items,unset,second]
          rfl
        have same : items { d with ht0 := ⟨List.replicate (2 ^ e) [],0⟩ } = [] := by
          rw [items,flattenEmpty,second]
          rfl
        refine ⟨⟨freshWell small,well.second,by rw [same]; exact .nil,fun _ => second,fun r busy => ?_⟩,?_⟩
        · rw [idle] at busy
          contradiction
        · rw [same,empty]
      · rename_i filled
        have same : items { d with ht1 := ⟨List.replicate (2 ^ e) [],0⟩, rehashidx := some 0 } = items d := by
          rw [items,items,flattenEmpty,second]
          rfl
        refine ⟨⟨well.first,freshWell small,by rw [same]; exact keys,fun none => by contradiction,?_⟩,by rw [same]⟩
        rintro r ⟨⟩
        refine ⟨filled,fun none => ?_,fun i low => absurd low (Nat.not_lt_zero _)⟩
        have long := congrArg List.length none
        rw [List.length_replicate] at long
        exact absurd long (Nat.two_pow_pos e).ne'

theorem resizeKept (env : Resizing) {d : Dict κ β} (well : Well hash d) (room : d.size ≤ maxChains) :
    Kept hash d (dictResize env d).1 := by
  have used : d.ht0.used ≤ maxChains := Nat.le_trans (Nat.le_add_right _ _) room
  rw [dictResize]
  split
  · exact keptSelf well
  · refine expandKept well ?_
    split
    · decide
    · exact used

end expand

section commands

def Absent (d : Dict κ β) (key : κ) : Prop := ∀ e ∈ items d, e.1 ≠ key

theorem Kept.absent {d d' : Dict κ β} (kept : Kept hash d d') {key : κ} (absent : Absent d' key) : Absent d key :=
  fun e mem => absent e (kept.same.mem_iff.mpr mem)

theorem runningSome {d : Dict κ β} (running : d.isRehashing = true) : ∃ r, d.rehashidx = some r :=
  Option.isSome_iff_exists.mp running

theorem stillIdle {d : Dict κ β} (still : ¬ d.isRehashing = true) : d.rehashidx = none := by
  rwa [Dict.isRehashing,Option.not_isSome_iff_eq_none] at still

theorem emptyItems {d : Dict κ β} (well : Well hash d) (empty : d.size = 0) : items d = [] := by
  rw [← List.length_eq_zero_iff,← well.size,empty]

/-- Another table in the place of one of the two, of the same size. -/
theorem Well.retable {d d' : Dict κ β} (well : Well hash d) (first : WellTable hash d'.ht0) (second : WellTable hash d'.ht1)
    (keys : ((items d').map Prod.fst).Nodup) (idx : d'.rehashidx = d.rehashidx)
    (length0 : d'.ht0.table.length = d.ht0.table.length) (length1 : d'.ht1.table.length = d.ht1.table.length)
    (idle : d.rehashidx = none → d'.ht1 = .reset)
    (behind : ∀ i, chain d.ht0.table i = [] → chain d'.ht0.table i = []) : Well hash d' := by
  refine ⟨first,second,keys,by rw [idx]; exact idle,fun r busy => ?_⟩
  rw [idx] at busy
  obtain ⟨some0,some1,empty⟩ := well.busy r busy
  refine ⟨?_,?_,fun i low => behind i (empty i low)⟩
  · exact List.length_pos_iff.mp (by rw [length0]; exact List.length_pos_iff.mpr some0)
  · exact List.length_pos_iff.mp (by rw [length1]; exact List.length_pos_iff.mpr some1)

theorem expandIfNeeded (env : Resizing) {d : Dict κ β} (well : Well hash d) (room : d.size + 1 < maxChains) :
    Kept hash d (dictExpandIfNeeded env d).1 ∧ (dictExpandIfNeeded env d).2 = true ∧
      (dictExpandIfNeeded env d).1.ht0.table ≠ [] := by
  rw [dictExpandIfNeeded]
  split
  · rename_i running
    obtain ⟨r,busy⟩ := runningSome running
    exact ⟨keptSelf well,rfl,(well.busy r busy).1⟩
  · rename_i still
    split
    · rename_i unset
      have none : d.ht0.table = [] := List.length_eq_zero_iff.mp unset
      have used : d.ht0.used = 0 := by rw [well.first.count,none]; rfl
      have grown : dictExpand d dictHtInitialSize = ({ d with ht0 := ⟨List.replicate 4 [],0⟩ },true) := by
        have initial : dictNextPower dictHtInitialSize = 4 := by decide
        rw [dictExpand,if_neg (by rw [used]; simp [still])]
        simp only [initial,unset,none,if_true]
        rfl
      refine ⟨expandKept well (by decide),by rw [grown],?_⟩
      rw [grown]
      exact List.cons_ne_nil _ _
    · rename_i set
      have filled : d.ht0.table ≠ [] := fun none => set (by rw [Dictht.size,none]; rfl)
      split
      · rename_i full
        have fits : d.ht0.used + 1 ≤ maxChains := by
          rw [Dict.size] at room
          omega
        obtain ⟨e,_,power,large⟩ := powerSpec fits
        have grown : dictExpand d (d.ht0.used + 1) =
            ({ d with ht1 := ⟨List.replicate (2 ^ e) [],0⟩, rehashidx := some 0 },true) := by
          rw [dictExpand,if_neg (by simp [still])]
          simp only [power]
          rw [if_neg (by omega),if_neg filled]
        refine ⟨expandKept well fits,by rw [grown],?_⟩
        rw [grown]
        exact filled
      · exact ⟨keptSelf well,rfl,filled⟩

variable [DecidableEq κ]

theorem wholeSome {d : Dict κ β} {key : κ} {e : κ × β} (found : search hash d key = some e) :
    e ∈ items d ∧ e.1 = key := by
  rw [search] at found
  split at found
  · rename_i here
    obtain rfl := Option.some.inj found
    obtain ⟨_,mem,same⟩ := searchSome here
    exact ⟨List.mem_append_left _ mem,same⟩
  · split at found
    · obtain ⟨_,mem,same⟩ := searchSome found
      exact ⟨List.mem_append_right _ mem,same⟩
    · contradiction

theorem wholeNone {d : Dict κ β} (well : Well hash d) {key : κ} (missing : search hash d key = none) : Absent d key := by
  rw [search] at missing
  split at missing
  · contradiction
  · rename_i first
    intro e mem
    rcases List.mem_append.mp mem with left | right
    · exact (searchNone well.first).mp first e left
    · split at missing
      · exact (searchNone well.second).mp missing e right
      · rename_i still
        rw [well.idle (stillIdle still)] at right
        contradiction

theorem addRaw (env : Resizing) {d : Dict κ β} (well : Well hash d) (key : κ) (val : β) (room : d.size + 1 < maxChains) :
    (∃ e, (dictAddRaw hash env d key val).2 = .existing e ∧ Kept hash d (dictAddRaw hash env d key val).1 ∧
        search hash (dictAddRaw hash env d key val).1 key = some e) ∨
      ((dictAddRaw hash env d key val).2 = .added ∧ Absent d key ∧ Well hash (dictAddRaw hash env d key val).1 ∧
        (items (dictAddRaw hash env d key val).1).Perm ((key,val) :: items d)) := by
  have stepped := stepKept well
  have enough : (stepIfRehashing hash d).size + 1 < maxChains := by
    rwa [stepped.well.size,stepped.same.length_eq,← well.size]
  obtain ⟨expanded,fine,filled⟩ := expandIfNeeded env stepped.well enough
  have kept := stepped.trans expanded
  rw [dictAddRaw,dictKeyIndex]
  simp only [fine,Bool.true_eq_false,if_false]
  generalize (dictExpandIfNeeded env (stepIfRehashing hash d)).1 = t at kept filled
  cases found : search hash t key with
  | some e => exact .inl ⟨e,rfl,kept,found⟩
  | none =>
    right
    have absent := wholeNone kept.well found
    have linked (t' : Dict κ β) (first : WellTable hash t'.ht0) (second : WellTable hash t'.ht1)
        (grown : (items t').Perm ((key,val) :: items t)) (idx : t'.rehashidx = t.rehashidx)
        (idle : t.rehashidx = none → t'.ht1 = .reset)
        (busy : ∀ r, t.rehashidx = some r → t'.ht0.table ≠ [] ∧ t'.ht1.table ≠ [] ∧ ∀ i < r, chain t'.ht0.table i = []) :
        Absent d key ∧ Well hash t' ∧ (items t').Perm ((key,val) :: items d) := by
      refine ⟨kept.absent absent,⟨first,second,?_,by rw [idx]; exact idle,by rw [idx]; exact busy⟩,
        grown.trans (kept.same.cons _)⟩
      refine (grown.map Prod.fst).nodup_iff.mpr (List.nodup_cons.mpr ⟨fun mem => ?_,kept.well.keys⟩)
      obtain ⟨e,inside,same⟩ := List.mem_map.mp mem
      exact absent e inside same
    cases running : t.isRehashing with
    | true =>
      obtain ⟨r,busy⟩ := runningSome running
      obtain ⟨some0,some1,behind⟩ := kept.well.busy r busy
      obtain ⟨well1,more⟩ := linkWell kept.well.second some1 (key,val)
      refine ⟨rfl,linked _ kept.well.first well1 ?_ rfl (fun idle => ?_) fun r' busy' => ?_⟩
      · exact (more.append_left _).trans List.perm_middle
      · rw [busy] at idle
        contradiction
      · obtain ⟨_,_,empty⟩ := kept.well.busy r' busy'
        exact ⟨some0,mt (List.set_eq_nil_iff _ _).mp some1,empty⟩
    | false =>
      obtain ⟨well0,more⟩ := linkWell kept.well.first filled (key,val)
      refine ⟨rfl,linked _ well0 kept.well.second ?_ rfl kept.well.idle fun r busy => ?_⟩
      · exact more.append_right _
      · rw [Dict.isRehashing,busy] at running
        contradiction

theorem unlinkShape {t : Dictht (κ × β)} (key : κ) :
    (unlinkIn hash t key).table.length = t.table.length ∧
      ∀ i, chain t.table i = [] → chain (unlinkIn hash t key).table i = [] :=
  ⟨List.length_set,chainSetEmpty fun none => by rw [none]; rfl⟩

theorem setShape {t : Dictht (κ × β)} (key : κ) (val : β) :
    (setIn hash t key val).table.length = t.table.length ∧
      ∀ i, chain t.table i = [] → chain (setIn hash t key val).table i = [] :=
  ⟨List.length_set,chainSetEmpty fun none => by rw [none]; rfl⟩

theorem deleted {d : Dict κ β} (well : Well hash d) (key : κ) :
    ((dictGenericDelete hash d key).2 = none ∧ Kept hash d (dictGenericDelete hash d key).1 ∧ Absent d key) ∨
      ∃ e, (dictGenericDelete hash d key).2 = some e ∧ e.1 = key ∧ Well hash (dictGenericDelete hash d key).1 ∧
        (items d).Perm (e :: items (dictGenericDelete hash d key).1) := by
  rw [dictGenericDelete]
  split
  · rename_i empty
    refine .inl ⟨rfl,keptSelf well,fun e mem => ?_⟩
    rw [emptyItems well (by rw [Dict.size]; omega)] at mem
    contradiction
  · have stepped := stepKept well
    generalize stepIfRehashing hash d = t at stepped
    have finish (t' : Dict κ β) (e : κ × β) (parts : (items t).Perm (e :: items t'))
        (made : ((items t').map Prod.fst).Nodup → Well hash t') : Well hash t' ∧ (items d).Perm (e :: items t') := by
      have keys := (parts.map Prod.fst).nodup_iff.mp stepped.well.keys
      rw [List.map_cons,List.nodup_cons] at keys
      exact ⟨made keys.2,stepped.same.symm.trans parts⟩
    dsimp only
    split
    · rename_i e found
      obtain ⟨well0,parts⟩ := unlinkWell stepped.well.first found
      refine .inr ⟨e,rfl,(searchSome found).2.2,finish _ e (parts.append_right _) fun keys => ?_⟩
      exact stepped.well.retable well0 stepped.well.second keys rfl (unlinkShape key).1 rfl stepped.well.idle (unlinkShape key).2
    · rename_i first
      split
      · rename_i running
        obtain ⟨r,busy⟩ := runningSome running
        split
        · rename_i e found
          obtain ⟨well1,parts⟩ := unlinkWell stepped.well.second found
          refine .inr ⟨e,rfl,(searchSome found).2.2,finish _ e ((parts.append_left _).trans List.perm_middle) fun keys => ?_⟩
          refine stepped.well.retable stepped.well.first well1 keys rfl rfl (unlinkShape key).1 (fun idle => ?_) fun _ empty => empty
          rw [busy] at idle
          contradiction
        · rename_i second
          refine .inl ⟨rfl,stepped,stepped.absent (wholeNone stepped.well ?_)⟩
          rw [search,first,if_pos running]
          exact second
      · rename_i still
        refine .inl ⟨rfl,stepped,stepped.absent (wholeNone stepped.well ?_)⟩
        rw [search,first,if_neg still]

theorem valueSet {d : Dict κ β} (well : Well hash d) {key : κ} {e : κ × β} (val : β) (found : search hash d key = some e) :
    Well hash (dictSetVal hash d key val) ∧
      ∃ rest, (items d).Perm (e :: rest) ∧ (items (dictSetVal hash d key val)).Perm ((key,val) :: rest) := by
  have same := (wholeSome found).2
  have finish (t' : Dict κ β) (rest : List (κ × β)) (before : (items d).Perm (e :: rest))
      (after : (items t').Perm ((e.1,val) :: rest)) (made : ((items t').map Prod.fst).Nodup → Well hash t') :
      Well hash t' ∧ ∃ rest, (items d).Perm (e :: rest) ∧ (items t').Perm ((key,val) :: rest) := by
    have names := (before.map Prod.fst).nodup_iff.mp well.keys
    rw [same] at after
    refine ⟨made ((after.map Prod.fst).nodup_iff.mpr ?_),rest,before,after⟩
    rwa [List.map_cons,same] at names
  rw [search] at found
  rw [dictSetVal]
  cases first : searchChain hash d.ht0 key with
  | some x =>
    rw [first] at found
    obtain rfl := Option.some.inj found
    obtain ⟨well0,rest,before,after⟩ := setWell well.first val first
    rw [if_pos Option.isSome_some]
    refine finish _ (rest ++ d.ht1.table.flatten) (before.append_right _) (after.append_right _) fun keys => ?_
    exact well.retable well0 well.second keys rfl (setShape key val).1 rfl well.idle (setShape key val).2
  | none =>
    rw [first] at found
    dsimp only at found
    rw [if_neg (by rw [Option.isSome_none]; exact Bool.false_ne_true)]
    split at found
    · rename_i running
      obtain ⟨r,busy⟩ := runningSome running
      obtain ⟨well1,rest,before,after⟩ := setWell well.second val found
      refine finish _ (d.ht0.table.flatten ++ rest) ((before.append_left _).trans List.perm_middle)
        ((after.append_left _).trans List.perm_middle) fun keys => ?_
      refine well.retable well.first well1 keys rfl rfl (setShape key val).1 (fun idle => ?_) fun _ empty => empty
      rw [busy] at idle
      contradiction
    · contradiction

theorem replaced (env : Resizing) {d : Dict κ β} (well : Well hash d) (key : κ) (val : β) (room : d.size + 1 < maxChains) :
    ∃ d' fresh, dictReplace hash env d key val = some (d',fresh) ∧ Well hash d' ∧
      ((fresh = true ∧ Absent d key ∧ (items d').Perm ((key,val) :: items d)) ∨
        (fresh = false ∧ ∃ e rest, e.1 = key ∧ (items d).Perm (e :: rest) ∧ (items d').Perm ((key,val) :: rest))) := by
  rw [dictReplace]
  rcases addRaw env well key val room with ⟨e,result,kept,found⟩ | ⟨result,absent,grownWell,grown⟩
  · obtain ⟨setWell,rest,before,after⟩ := valueSet kept.well val found
    rw [result]
    exact ⟨_,_,rfl,setWell,.inr ⟨rfl,e,rest,(wholeSome found).2,kept.same.symm.trans before,after⟩⟩
  · rw [result]
    exact ⟨_,_,rfl,grownWell,.inl ⟨rfl,absent,grown⟩⟩

theorem foundKept {d : Dict κ β} (well : Well hash d) (key : κ) :
    Kept hash d (dictFind hash d key).1 ∧ ∀ e, (dictFind hash d key).2 = some e ↔ e ∈ items d ∧ e.1 = key := by
  rw [dictFind]
  split
  · rename_i empty
    refine ⟨keptSelf well,fun e => ⟨fun found => by contradiction,fun inside => ?_⟩⟩
    rw [emptyItems well empty] at inside
    exact absurd inside.1 (List.not_mem_nil)
  · have stepped := stepKept well
    refine ⟨stepped,fun e => ⟨fun found => ?_,fun inside => ?_⟩⟩
    · obtain ⟨mem,same⟩ := wholeSome found
      exact ⟨stepped.same.mem_iff.mp mem,same⟩
    · have mem := stepped.same.mem_iff.mpr inside.1
      cases found : search hash (stepIfRehashing hash d) key with
      | none => exact absurd inside.2 (wholeNone stepped.well found e mem)
      | some x =>
        obtain ⟨here,same⟩ := wholeSome found
        exact found.trans (congrArg some (List.inj_on_of_nodup_map stepped.well.keys here mem (same.trans inside.2.symm)))

end commands

end whole

section runs
variable {κ β : Type} (hash : κ → BitVec 64)

inductive Op (κ β : Type) where
  | find (key : κ)
  | add (env : Resizing) (key : κ) (val : β)
  | replace (env : Resizing) (key : κ) (val : β)
  | delete (key : κ)
  | rehash (n : Nat)
  | resize (env : Resizing)
  | expand (size : Nat)
  | pauseRehashing
  | resumeRehashing
  | empty

/-- A size that a block can have, and an argument of `dictRehash` that fits ten times into an `int`. -/
def Op.Fits : Op κ β → Prop
  | .expand size => size ≤ maxChains
  | .rehash n => n * 10 < 2 ^ 31
  | _ => True

instance : DecidablePred (Op.Fits : Op κ β → Prop)
  | .expand _ => Nat.decLe _ _
  | .rehash _ => Nat.decLt _ _
  | .find _ | .add _ _ _ | .replace _ _ _ | .delete _ | .resize _ | .pauseRehashing | .resumeRehashing | .empty =>
    instDecidableTrue

inductive Reply (β : Type) where
  | done
  | flag (fresh : Bool)
  | value (v : Option β)

variable [DecidableEq κ]

def apply (d : Dict κ β) : Op κ β → Option (Dict κ β × Reply β)
  | .find key => some ((dictFind hash d key).1,.value ((dictFind hash d key).2.map Prod.snd))
  | .add env key val => some ((dictAdd hash env d key val).1,.flag (dictAdd hash env d key val).2)
  | .replace env key val => (dictReplace hash env d key val).map fun r => (r.1,.flag r.2)
  | .delete key => some ((dictGenericDelete hash d key).1,.value ((dictGenericDelete hash d key).2.map Prod.snd))
  | .rehash n => some ((dictRehash hash d n).1,.done)
  | .resize env => some ((dictResize env d).1,.done)
  | .expand size => some ((dictExpand d size).1,.done)
  | .pauseRehashing => some ({ d with pauserehash := d.pauserehash + 1 },.done)
  | .resumeRehashing => some ({ d with pauserehash := d.pauserehash - 1 },.done)
  | .empty => some (dictEmpty,.done)

def play (d : Dict κ β) : List (Op κ β) → Option (Dict κ β × List (Reply β))
  | [] => some (d,[])
  | op :: rest => do
    let here ← apply hash d op
    let later ← play here.1 rest
    some (later.1,here.2 :: later.2)

/-- The same calls on a dictionary that is a list of entries with distinct keys. -/
def applyKeyed (m : KeyedDict.Dict (Prod.fst : κ × β → κ)) : Op κ β → KeyedDict.Dict (Prod.fst : κ × β → κ) × Reply β
  | .find key => (m,.value ((m.find key).map Prod.snd))
  | .add _ key val => if m.has key then (m,.flag false) else (m.replace (key,val),.flag true)
  | .replace _ key val => (m.replace (key,val),.flag !m.has key)
  | .delete key => (m.delete key,.value ((m.find key).map Prod.snd))
  | .empty => (.empty,.done)
  | _ => (m,.done)

def playKeyed (m : KeyedDict.Dict (Prod.fst : κ × β → κ)) : List (Op κ β) →
    KeyedDict.Dict (Prod.fst : κ × β → κ) × List (Reply β)
  | [] => (m,[])
  | op :: rest =>
    let later := playKeyed (applyKeyed m op).1 rest
    (later.1,(applyKeyed m op).2 :: later.2)

structure Refines (d : Dict κ β) (m : KeyedDict.Dict (Prod.fst : κ × β → κ)) : Prop where
  well : Well hash d
  same : (items d).Perm m.entries

variable {hash}

theorem keyDropped {l rest : List (κ × β)} {e : κ × β} (parts : l.Perm (e :: rest)) (keys : (l.map Prod.fst).Nodup) :
    (l.filter fun x => x.1 ≠ e.1).Perm rest := by
  have names := (parts.map Prod.fst).nodup_iff.mp keys
  rw [List.map_cons,List.nodup_cons] at names
  have others : rest.filter (fun x => x.1 ≠ e.1) = rest := by
    rw [List.filter_eq_self]
    intro x mem
    rw [decide_eq_true_iff]
    intro same
    exact names.1 (same ▸ List.mem_map_of_mem mem)
  have dropped := parts.filter fun x => decide (x.1 ≠ e.1)
  rwa [List.filter_cons_of_neg (by simp),others] at dropped

theorem Refines.lookup {d : Dict κ β} {m : KeyedDict.Dict (Prod.fst : κ × β → κ)} (refines : Refines hash d m) (key : κ)
    (e : κ × β) : m.find key = some e ↔ e ∈ items d ∧ e.1 = key := by
  rw [KeyedDict.Dict.findIff,refines.same.mem_iff]

theorem Refines.missing {d : Dict κ β} {m : KeyedDict.Dict (Prod.fst : κ × β → κ)} (refines : Refines hash d m) {key : κ}
    (absent : Absent d key) : m.find key = none ∧ m.has key = false ∧ (m.delete key).entries = m.entries := by
  have none : m.find key = none :=
    KeyedDict.Dict.findNone.mpr fun e mem => absent e (refines.same.mem_iff.mpr mem)
  refine ⟨none,by rw [KeyedDict.Dict.hasFind,none]; rfl,?_⟩
  rw [KeyedDict.Dict.delete,List.filter_eq_self]
  intro e mem
  rw [decide_eq_true_iff]
  exact absent e (refines.same.mem_iff.mpr mem)

theorem Refines.held {d : Dict κ β} {m : KeyedDict.Dict (Prod.fst : κ × β → κ)} (refines : Refines hash d m) {key : κ}
    {e : κ × β} {rest : List (κ × β)} (same : e.1 = key) (parts : (items d).Perm (e :: rest)) :
    m.find key = some e ∧ m.has key = true ∧ rest.Perm (m.delete key).entries := by
  have found := (refines.lookup key e).mpr ⟨parts.mem_iff.mpr List.mem_cons_self,same⟩
  refine ⟨found,by rw [KeyedDict.Dict.hasFind,found]; rfl,?_⟩
  have dropped := keyDropped (refines.same.symm.trans parts) m.distinct
  rw [same] at dropped
  exact dropped.symm

omit [DecidableEq κ] in
theorem Refines.kept {d d' : Dict κ β} {m : KeyedDict.Dict (Prod.fst : κ × β → κ)} (refines : Refines hash d m)
    (kept : Kept hash d d') : Refines hash d' m ∧ d'.size ≤ d.size + 1 := by
  refine ⟨⟨kept.well,kept.same.trans refines.same⟩,?_⟩
  rw [kept.well.size,refines.well.size,kept.same.length_eq]
  omega

theorem Refines.grown {d d' : Dict κ β} {m : KeyedDict.Dict (Prod.fst : κ × β → κ)} {key : κ} {val : β}
    {rest : List (κ × β)} (refines : Refines hash d m) (well : Well hash d') (others : rest.Perm (m.delete key).entries)
    (fewer : rest.length ≤ (items d).length) (added : (items d').Perm ((key,val) :: rest)) :
    Refines hash d' (m.replace (key,val)) ∧ d'.size ≤ d.size + 1 := by
  refine ⟨⟨well,?_⟩,?_⟩
  · exact (added.trans (others.cons _)).trans (List.perm_append_singleton _ _).symm
  · rw [well.size,refines.well.size,added.length_eq,List.length_cons]
    omega

theorem refinesStep {d : Dict κ β} {m : KeyedDict.Dict (Prod.fst : κ × β → κ)} (refines : Refines hash d m)
    {op : Op κ β} (fits : op.Fits) (room : d.size + 1 < maxChains) : ∃ d', apply hash d op = some (d',(applyKeyed m op).2) ∧
      Refines hash d' (applyKeyed m op).1 ∧ d'.size ≤ d.size + 1 := by
  have same (d' : Dict κ β) (kept : Kept hash d d') := refines.kept kept
  cases op with
  | find key =>
    obtain ⟨kept,answers⟩ := foundKept refines.well key
    refine ⟨_,?_,same _ kept⟩
    have answer : (dictFind hash d key).2 = m.find key := by
      apply Option.ext
      intro e
      rw [answers,refines.lookup]
    rw [apply,answer]
    rfl
  | add env key val =>
    rcases addRaw env refines.well key val room with ⟨e,result,kept,found⟩ | ⟨result,absent,well,grown⟩
    · obtain ⟨mem,name⟩ := wholeSome found
      have has : m.has key = true := by
        rw [KeyedDict.Dict.hasFind,(refines.lookup key e).mpr ⟨kept.same.mem_iff.mp mem,name⟩]
        rfl
      refine ⟨(dictAddRaw hash env d key val).1,?_,?_⟩
      · rw [apply,dictAdd,applyKeyed,if_pos has,result]
      · rw [applyKeyed,if_pos has]
        exact same _ kept
    · obtain ⟨_,has,others⟩ := refines.missing absent
      refine ⟨(dictAddRaw hash env d key val).1,?_,?_⟩
      · rw [apply,dictAdd,applyKeyed,if_neg (by rw [has]; exact Bool.false_ne_true),result]
      · rw [applyKeyed,if_neg (by rw [has]; exact Bool.false_ne_true)]
        exact refines.grown well (by rw [others]; exact refines.same) (Nat.le_refl _) grown
  | replace env key val =>
    obtain ⟨d',fresh,result,well,ways⟩ := replaced env refines.well key val room
    rcases ways with ⟨rfl,absent,grown⟩ | ⟨rfl,e,rest,name,before,after⟩
    · obtain ⟨_,has,others⟩ := refines.missing absent
      refine ⟨d',?_,refines.grown well (by rw [others]; exact refines.same) (Nat.le_refl _) grown⟩
      rw [apply,result,applyKeyed,has]
      rfl
    · obtain ⟨_,has,others⟩ := refines.held name before
      refine ⟨d',?_,refines.grown well others (by rw [before.length_eq]; exact Nat.le_succ _) after⟩
      rw [apply,result,applyKeyed,has]
      rfl
  | delete key =>
    rcases deleted refines.well key with ⟨result,kept,absent⟩ | ⟨e,result,name,well,parts⟩
    · obtain ⟨none,_,others⟩ := refines.missing absent
      obtain ⟨after,fits⟩ := same _ kept
      refine ⟨_,?_,⟨after.well,?_⟩,fits⟩
      · rw [apply,result,applyKeyed,none,Option.map_none]
      · rw [applyKeyed,others]
        exact after.same
    · obtain ⟨found,_,others⟩ := refines.held name parts
      refine ⟨_,?_,⟨well,others⟩,?_⟩
      · rw [apply,result,applyKeyed,found,Option.map_some]
      · rw [well.size,refines.well.size,parts.length_eq,List.length_cons]
        omega
  | rehash n => exact ⟨_,rfl,same _ (rehashKept refines.well n)⟩
  | resize env => exact ⟨_,rfl,same _ (resizeKept env refines.well (by omega))⟩
  | expand size => exact ⟨_,rfl,same _ (expandKept refines.well fits)⟩
  | pauseRehashing =>
    have well := refines.well
    exact ⟨_,rfl,same _ ⟨⟨well.first,well.second,well.keys,well.idle,well.busy⟩,.refl _⟩⟩
  | resumeRehashing =>
    have well := refines.well
    exact ⟨_,rfl,same _ ⟨⟨well.first,well.second,well.keys,well.idle,well.busy⟩,.refl _⟩⟩
  | empty => exact ⟨_,rfl,⟨createWell,.refl _⟩,Nat.zero_le _⟩

theorem refinesRun {ops : List (Op κ β)} (fit : ∀ op ∈ ops, op.Fits) {d : Dict κ β}
    {m : KeyedDict.Dict (Prod.fst : κ × β → κ)} (refines : Refines hash d m) (room : d.size + ops.length < maxChains) :
    ∃ d', play hash d ops = some (d',(playKeyed m ops).2) ∧ Refines hash d' (playKeyed m ops).1 ∧
      d'.size ≤ d.size + ops.length := by
  induction ops generalizing d m with
  | nil => exact ⟨d,rfl,refines,Nat.le_refl _⟩
  | cons op rest ih =>
    rw [List.length_cons] at room
    obtain ⟨next,taken,after,grown⟩ := refinesStep refines (fit op List.mem_cons_self) (by omega)
    obtain ⟨last,later,final,total⟩ := ih (fun op inside => fit op (List.mem_cons_of_mem _ inside)) after (by omega)
    refine ⟨last,?_,final,by rw [List.length_cons]; omega⟩
    rw [play,taken]
    simp only [Option.bind_eq_bind,Option.bind_some,later,playKeyed]

omit [DecidableEq κ] in
theorem createRefines : Refines hash (dictCreate : Dict κ β) .empty := ⟨createWell,.refl _⟩

omit [DecidableEq κ] in
theorem WellTable.bounded {t : Dictht (κ × β)} (well : WellTable hash t) : t.size ≤ maxChains := by
  rw [Dictht.size]
  by_cases none : t.table = []
  · rw [none]
    exact Nat.zero_le _
  · obtain ⟨e,small,size⟩ := well.power none
    rw [size]
    exact Nat.pow_le_pow_right (by omega) small

/-- Whatever is called, and however far the tables have been moved, the dictionary answers as a list of
entries with distinct keys does, and holds the same entries, in tables whose byte counts fit a word. -/
theorem dictRefines (hash : κ → BitVec 64) (ops : List (Op κ β)) (few : ops.length < maxChains)
    (fit : ∀ op ∈ ops, op.Fits) :
    ∃ d, play hash dictCreate ops = some (d,(playKeyed .empty ops).2) ∧ (items d).Perm (playKeyed .empty ops).1.entries ∧
      d.size = (playKeyed .empty ops).1.size ∧ d.ht0.size ≤ maxChains ∧ d.ht1.size ≤ maxChains := by
  obtain ⟨d,played,refines,_⟩ := refinesRun fit createRefines
    (by rwa [show (dictCreate : Dict κ β).size = 0 from rfl,Nat.zero_add])
  refine ⟨d,played,refines.same,?_,refines.well.first.bounded,refines.well.second.bounded⟩
  rw [refines.well.size,refines.same.length_eq]
  rfl

/-- The fifth key makes the dictionary grow; the calls behind it move one chain each. -/
def growing : List (Op Nat Char) :=
  [.add ⟨true,true⟩ 1 'a',.add ⟨true,true⟩ 2 'b',.add ⟨true,true⟩ 3 'c',.add ⟨true,true⟩ 4 'd',.add ⟨true,true⟩ 5 'e',
    .find 2,.replace ⟨true,true⟩ 3 'z',.delete 1]

theorem dictRefinesMet : ∃ d, play (fun k => BitVec.ofNat 64 k) dictCreate growing =
      some (d,[.flag true,.flag true,.flag true,.flag true,.flag true,.value (some 'b'),.flag false,.value (some 'a')]) ∧
    (items d).Perm [(2,'b'),(4,'d'),(5,'e'),(3,'z')] ∧ d.rehashidx = some 3 ∧ d.ht0.used = 1 ∧ d.ht1.used = 3 := by
  obtain ⟨d,played,same,_⟩ := dictRefines (fun k : Nat => BitVec.ofNat 64 k) growing (by decide) (by decide)
  have halfway : (play (fun k : Nat => BitVec.ofNat 64 k) dictCreate growing).map
      (fun r => (r.1.rehashidx,r.1.ht0.used,r.1.ht1.used)) = some (some 3,1,3) := by decide +kernel
  rw [played,Option.map_some,Option.some.injEq,Prod.mk.injEq,Prod.mk.injEq] at halfway
  exact ⟨d,played,same,halfway⟩

end runs

end HpuCache.IncrementalDict
