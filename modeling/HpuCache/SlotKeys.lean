import HpuCache.SlotIndex
import HpuCache.SortedKeys
import HpuCache.FaultRun

/-! The database and its `slots_to_keys` tree with one counter a slot, each changed by
statements of its own. Every run keeps the three in step, and `delKeysInSlot`, which
trusts the counter to end, empties a slot exactly when its `int` can count the keys. -/
namespace HpuCache.SlotKeys
open ByteText KeySlot KeyedDict PageScan SlotIndex SortedKeys FaultRun

inductive Fault where
  | assertion | outOfMemory | badString | intOverflow | outOfFuel
  deriving DecidableEq

variable {Value : Type}

/-- A dictionary in memory: each entry has an address of its own. -/
abbrev Entries (Value : Type) := {d : Store Value // d.size < 2 ^ 64}

structure Keyspace (Value : Type) where
  dict : Entries Value
  expires : Dict (Prod.fst : Bytes × Int → Bytes)
  slotsToKeys : Sorted Bytes
  slotsKeysCount : Slot → UInt64

def fresh : Keyspace Value := ⟨⟨.empty,Nat.two_pow_pos 64⟩,.empty,.empty,fun _ => 0⟩

/-- The allocation aborts before the addresses run out. -/
def dictAdd (d : Entries Value) (key : Bytes) (val : Value) : Except Fault (Option (Entries Value)) :=
  if d.val.has key then .ok none
  else if room : (d.val.replace (key,val)).size < 2 ^ 64 then .ok (some ⟨d.val.replace (key,val),room⟩)
  else .error .outOfMemory

def slotToKeyUpdateKey (key : Bytes) (add : Bool) (ks : Keyspace Value) : Keyspace Value :=
  { ks with
    slotsKeysCount := fun slot =>
      if slot = keyHashSlot key then ks.slotsKeysCount slot + (if add then 1 else -1) else ks.slotsKeysCount slot
    slotsToKeys := if add then ks.slotsToKeys.insert (indexed key) else ks.slotsToKeys.remove (indexed key) }

def slotToKeyAdd (key : Bytes) (ks : Keyspace Value) : Keyspace Value := slotToKeyUpdateKey key true ks
def slotToKeyDel (key : Bytes) (ks : Keyspace Value) : Keyspace Value := slotToKeyUpdateKey key false ks

def slotToKeyFlush (ks : Keyspace Value) : Keyspace Value :=
  { ks with slotsToKeys := .empty, slotsKeysCount := fun _ => 0 }

def dbAdd (key : Bytes) (val : Value) (ks : Keyspace Value) : Except Fault (Keyspace Value) := do
  match ← dictAdd ks.dict key val with
  | none => .error .assertion
  | some dict => .ok (slotToKeyAdd key { ks with dict := dict })

def dbAddRDBLoad (key : Bytes) (val : Value) (ks : Keyspace Value) : Except Fault (Bool × Keyspace Value) := do
  match ← dictAdd ks.dict key val with
  | none => .ok (false,ks)
  | some dict => .ok (true,slotToKeyAdd key { ks with dict := dict })

/-- The entry stays where it is and only its value changes. -/
def dictSetVal (d : Entries Value) (key : Bytes) (val : Value) : Entries Value :=
  ⟨⟨d.val.entries.map fun e => if e.1 = key then (key,val) else e,by
      have kept : (d.val.entries.map fun e => if e.1 = key then (key,val) else e).map Prod.fst =
          d.val.entries.map Prod.fst := by
        rw [List.map_map]
        apply List.map_congr_left
        intro e _
        simp only [Function.comp_apply]
        split
        · next same => exact same.symm
        · rfl
      exact kept ▸ d.val.distinct⟩,by
    simpa [Dict.size] using d.property⟩

def dbOverwrite (key : Bytes) (val : Value) (ks : Keyspace Value) : Except Fault (Keyspace Value) :=
  if ks.dict.val.has key then .ok { ks with dict := dictSetVal ks.dict key val } else .error .assertion

def setExpire (key : Bytes) (when : Int) (ks : Keyspace Value) : Except Fault (Keyspace Value) :=
  if ks.dict.val.has key then .ok { ks with expires := ks.expires.replace (key,when) } else .error .assertion

theorem sizeDeleteLe (d : Store Value) (key : Bytes) : (d.delete key).size ≤ d.size := List.length_filter_le _ _

/-- Both `dbSyncDelete` and `dbAsyncDelete`: they differ in who frees the value. -/
def dbDelete (key : Bytes) (ks : Keyspace Value) : Bool × Keyspace Value :=
  let ks := { ks with expires := ks.expires.delete key }
  if ks.dict.val.has key then
    (true,slotToKeyDel key { ks with
      dict := ⟨ks.dict.val.delete key,Nat.lt_of_le_of_lt (sizeDeleteLe _ _) ks.dict.property⟩ })
  else (false,ks)

/-- The databases beyond the first hold nothing, so they add nothing to the number removed. -/
def emptyDb (dbs : Nat) (dbnum : Int) (ks : Keyspace Value) : Int × Keyspace Value :=
  if dbnum < -1 ∨ dbnum ≥ dbs then (-1,ks)
  else if dbnum ≤ 0 then
    (ks.dict.val.size,slotToKeyFlush { ks with dict := ⟨.empty,Nat.two_pow_pos 64⟩, expires := .empty })
  else (0,slotToKeyFlush ks)

/-- One round of `delKeysInSlot` takes the first entry from the slot's two bytes on. -/
def delKeysInSlot (slot : Slot) : Nat → Nat → Keyspace Value → Except Fault (UInt32 × Keyspace Value)
  | 0,_,_ => .error .outOfFuel
  | fuel + 1,j,ks =>
    if ks.slotsKeysCount slot = 0 then .ok (UInt32.ofNat j,ks)
    else match seek (slotBytes slot) ks.slotsToKeys.keys with
      | (_ :: _ :: key) :: _ =>
        if j + 1 < 2 ^ 31 then delKeysInSlot slot fuel (j + 1) (dbDelete key ks).2 else .error .intOverflow
      | _ => .error .badString

def keysIn (slot : Slot) (d : Store Value) : List Bytes :=
  (d.entries.map Prod.fst).filter fun key => keyHashSlot key = slot

def entriesOf (slot : Slot) (ks : Keyspace Value) : List Bytes :=
  (ks.slotsToKeys.keys.filter (slotBytes slot).isPrefixOf).map (List.drop 2)

inductive Op (Value : Type) where
  | add (key : Bytes) (val : Value) | addRDBLoad (key : Bytes) (val : Value) | overwrite (key : Bytes) (val : Value)
  | delete (key : Bytes) | expire (key : Bytes) (when : Int) | empty (dbnum : Int)

def apply (dbs : Nat) (ks : Keyspace Value) : Op Value → Except Fault (Keyspace Value)
  | .add key val => dbAdd key val ks
  | .addRDBLoad key val => (dbAddRDBLoad key val ks).map Prod.snd
  | .overwrite key val => dbOverwrite key val ks
  | .delete key => .ok (dbDelete key ks).2
  | .expire key when => setExpire key when ks
  | .empty dbnum => .ok (emptyDb dbs dbnum ks).2

def play (dbs : Nat) (ops : List (Op Value)) : Except Fault (Keyspace Value) := ops.foldlM (apply dbs) fresh

/-- Only the first database is in use: no other one is emptied. -/
def Op.Single (dbs : Nat) : Op Value → Prop
  | .empty dbnum => dbnum ≤ 0 ∨ dbnum ≥ dbs
  | _ => True

section keys
variable {slot : Slot} {key : Bytes} {d e : Store Value}

theorem memKeysIn : key ∈ keysIn slot d ↔ keyHashSlot key = slot ∧ d.has key = true := by
  simp [keysIn,Dict.hasIff,and_comm]

theorem keysInDistinct (slot : Slot) (d : Store Value) : (keysIn slot d).Nodup := d.distinct.filter _

theorem keysInSmall (slot : Slot) (d : Entries Value) : (keysIn slot d.val).length < 2 ^ 64 := by
  have within := List.length_filter_le (fun key => keyHashSlot key = slot) (d.val.entries.map Prod.fst)
  rw [List.length_map] at within
  exact Nat.lt_of_le_of_lt within d.property

theorem keysInSame (same : ∀ k, e.has k = d.has k) : (keysIn slot e).length = (keysIn slot d).length :=
  ((List.perm_ext_iff_of_nodup (keysInDistinct slot e) (keysInDistinct slot d)).mpr
    fun k => by rw [memKeysIn,memKeysIn,same k]).length_eq

structure Grown (key : Bytes) (d e : Store Value) : Prop where
  absent : d.has key = false
  has : ∀ k, e.has k = (decide (key = k) || d.has k)

theorem Grown.length (grown : Grown key d e) (slot : Slot) :
    (keysIn slot e).length = (keysIn slot d).length + if keyHashSlot key = slot then 1 else 0 := by
  have apart : key ∉ keysIn slot d := by simp [memKeysIn,grown.absent]
  split
  · next here =>
    have listed : (keysIn slot e).Perm (key :: keysIn slot d) := by
      apply (List.perm_ext_iff_of_nodup (keysInDistinct slot e)
        (List.nodup_cons.mpr ⟨apart,keysInDistinct slot d⟩)).mpr
      intro k
      rw [List.mem_cons,memKeysIn,memKeysIn,grown.has,Bool.or_eq_true,decide_eq_true_eq]
      constructor
      · rintro ⟨hash,same | old⟩
        · exact .inl same.symm
        · exact .inr ⟨hash,old⟩
      · rintro (rfl | ⟨hash,old⟩)
        · exact ⟨here,.inl rfl⟩
        · exact ⟨hash,.inr old⟩
    exact listed.length_eq
  · next elsewhere =>
    have listed : (keysIn slot e).Perm (keysIn slot d) := by
      apply (List.perm_ext_iff_of_nodup (keysInDistinct slot e) (keysInDistinct slot d)).mpr
      intro k
      rw [memKeysIn,memKeysIn,grown.has,Bool.or_eq_true,decide_eq_true_eq]
      constructor
      · rintro ⟨hash,rfl | old⟩
        · exact absurd hash elsewhere
        · exact ⟨hash,old⟩
      · rintro ⟨hash,old⟩
        exact ⟨hash,.inr old⟩
    exact listed.length_eq

theorem grownReplace {val : Value} (absent : d.has key = false) : Grown key d (d.replace (key,val)) :=
  ⟨absent,fun k => d.hasReplace (key,val) k⟩

theorem grownDelete (present : d.has key = true) : Grown key (d.delete key) d := by
  refine ⟨by simp [Dict.hasDelete],fun k => ?_⟩
  rw [Dict.hasDelete]
  by_cases same : key = k
  · simp [← same,present]
  · simp [same,Ne.symm same]

end keys

/-- The tree and the counters say what the dictionary holds. -/
structure Exact (ks : Keyspace Value) : Prop where
  listed : ∀ entry, entry ∈ ks.slotsToKeys.keys ↔ ∃ key, ks.dict.val.has key = true ∧ indexed key = entry
  counted : ∀ slot, (ks.slotsKeysCount slot).toNat = (keysIn slot ks.dict.val).length

section invariant
variable {ks : Keyspace Value} {key : Bytes}

theorem exactFresh : Exact (fresh : Keyspace Value) :=
  ⟨fun entry => by simp [fresh,Sorted.empty,Dict.empty,Dict.has],fun slot => by simp [fresh,keysIn,Dict.empty]⟩

theorem exactSame {dict : Entries Value} (exact : Exact ks) (same : ∀ k, dict.val.has k = ks.dict.val.has k) :
    Exact { ks with dict := dict } :=
  ⟨fun entry => by simp only [same,exact.listed],fun slot => by rw [keysInSame same,exact.counted]⟩

theorem exactAdd {dict : Entries Value} (exact : Exact ks) (grown : Grown key ks.dict.val dict.val) :
    Exact (slotToKeyAdd key { ks with dict := dict }) := by
  constructor
  · intro entry
    simp only [slotToKeyAdd,slotToKeyUpdateKey,if_true,Sorted.memInsert,exact.listed,grown.has,Bool.or_eq_true,
      decide_eq_true_eq,or_and_right,exists_or,exists_eq_left']
    exact or_congr_left eq_comm
  · intro slot
    have room := keysInSmall slot dict
    have length := grown.length slot
    have before := exact.counted slot
    simp only [slotToKeyAdd,slotToKeyUpdateKey,if_true]
    split
    · next here =>
      rw [if_pos here.symm] at length
      have one : (1 : UInt64).toNat = 1 := rfl
      rw [UInt64.toNat_add,one,before,length,Nat.mod_eq_of_lt (by omega)]
    · next elsewhere =>
      rw [if_neg (Ne.symm elsewhere)] at length
      omega

theorem exactDel {dict : Entries Value} (exact : Exact ks) (grown : Grown key dict.val ks.dict.val) :
    Exact (slotToKeyDel key { ks with dict := dict }) := by
  constructor
  · intro entry
    simp only [slotToKeyDel,slotToKeyUpdateKey,Bool.false_eq_true,if_false,Sorted.memRemove,exact.listed,grown.has,
      Bool.or_eq_true,decide_eq_true_eq]
    constructor
    · rintro ⟨⟨k,rfl | old,rfl⟩,other⟩
      · exact absurd rfl other
      · exact ⟨k,old,rfl⟩
    · rintro ⟨k,old,rfl⟩
      refine ⟨⟨k,.inr old,rfl⟩,fun same => ?_⟩
      rw [indexedEq.mp same,grown.absent] at old
      contradiction
  · intro slot
    have room := keysInSmall slot ks.dict
    have length := grown.length slot
    have before := exact.counted slot
    simp only [slotToKeyDel,slotToKeyUpdateKey,Bool.false_eq_true,if_false]
    split
    · next here =>
      rw [if_pos here.symm] at length
      have minus : (-1 : UInt64).toNat = 2 ^ 64 - 1 := rfl
      rw [UInt64.toNat_add,minus,before]
      omega
    · next elsewhere =>
      rw [if_neg (Ne.symm elsewhere)] at length
      omega

theorem dictAddEnds (d : Entries Value) (key : Bytes) (val : Value) :
    Ends (fun _ => True) (fun added => ∀ e, added = some e → Grown key d.val e.val) (dictAdd d key val) := by
  rw [dictAdd]
  split
  · intro e none
    cases none
  · next absent =>
    split
    · intro e same
      cases same
      exact grownReplace (by simpa using absent)
    · trivial

theorem exactDbAdd (exact : Exact ks) (val : Value) : Ends (fun _ => True) Exact (dbAdd key val ks) := by
  refine (dictAddEnds ks.dict key val).bind fun added grown => ?_
  cases added with
  | none => trivial
  | some dict => exact exactAdd exact (grown dict rfl)

theorem exactDbAddRDBLoad (exact : Exact ks) (val : Value) :
    Ends (fun _ => True) (fun r => Exact r.2) (dbAddRDBLoad key val ks) := by
  refine (dictAddEnds ks.dict key val).bind fun added grown => ?_
  cases added with
  | none => exact exact
  | some dict => exact exactAdd exact (grown dict rfl)

theorem hasSetVal (d : Entries Value) (key : Bytes) (val : Value) (k : Bytes) :
    (dictSetVal d key val).val.has k = d.val.has k := by
  simp only [dictSetVal,Dict.has,List.any_map]
  congr 1
  funext e
  simp only [Function.comp_apply]
  split
  · next same => rw [same]
  · rfl

theorem exactDbOverwrite (exact : Exact ks) (val : Value) : Ends (fun _ => True) Exact (dbOverwrite key val ks) := by
  rw [dbOverwrite]
  split
  · exact exactSame exact (hasSetVal ks.dict key val)
  · trivial

theorem exactDbDelete (exact : Exact ks) (key : Bytes) : Exact (dbDelete key ks).2 := by
  have other : Exact { ks with expires := ks.expires.delete key } := ⟨exact.listed,exact.counted⟩
  simp only [dbDelete]
  split
  · next present => exact exactDel other (grownDelete present)
  · exact other

theorem exactEmptyDb {dbs : Nat} {dbnum : Int} (single : dbnum ≤ 0 ∨ dbnum ≥ dbs) (exact : Exact ks) :
    Exact (emptyDb dbs dbnum ks).2 := by
  rw [emptyDb]
  split
  · exact exact
  · next inRange =>
    rw [if_pos (by omega)]
    exact ⟨fun entry => by simp [slotToKeyFlush,Sorted.empty,Dict.empty,Dict.has],
      fun slot => by simp [slotToKeyFlush,keysIn,Dict.empty]⟩

theorem exactApply {dbs : Nat} {op : Op Value} (single : op.Single dbs) (exact : Exact ks) :
    Ends (fun _ => True) Exact (apply dbs ks op) := by
  cases op with
  | add key val => exact exactDbAdd exact val
  | addRDBLoad key val =>
    have added := @exactDbAddRDBLoad _ ks key exact val
    simp only [apply]
    cases load : dbAddRDBLoad key val ks with
    | error => trivial
    | ok r => exact added.value load
  | overwrite key val => exact exactDbOverwrite exact val
  | delete key => exact exactDbDelete exact key
  | expire key when =>
    simp only [apply,setExpire]
    split
    · exact ⟨exact.listed,exact.counted⟩
    · trivial
  | empty dbnum => exact exactEmptyDb single exact

theorem exactPlay {dbs : Nat} {ops : List (Op Value)} (single : ∀ op ∈ ops, op.Single dbs)
    (run : play dbs ops = .ok ks) :
    Exact ks :=
  (foldKept (fun _ op member exact => exactApply (single op member) exact) exactFresh).value run

end invariant

section deletion
variable {slot : Slot} {ks : Keyspace Value} {key : Bytes}

theorem prefixedEntry (exact : Exact ks) {entry : Bytes} :
    entry ∈ ks.slotsToKeys.keys.filter (slotBytes slot).isPrefixOf ↔
    ∃ key ∈ keysIn slot ks.dict.val, indexed key = entry := by
  simp only [List.mem_filter,exact.listed,memKeysIn]
  constructor
  · rintro ⟨⟨key,present,rfl⟩,start⟩
    rw [indexedPrefix,decide_eq_true_eq] at start
    exact ⟨key,⟨start,present⟩,rfl⟩
  · rintro ⟨key,⟨hash,present⟩,rfl⟩
    exact ⟨⟨key,present,rfl⟩,by simpa [indexedPrefix] using hash⟩

theorem entriesPerm (exact : Exact ks) (slot : Slot) : (entriesOf slot ks).Perm (keysIn slot ks.dict.val) := by
  have bytes : ∀ {entry : Bytes}, (slotBytes slot).isPrefixOf entry = true →
      slotBytes slot ++ entry.drop 2 = entry := by
    intro entry start
    obtain ⟨rest,rfl⟩ := List.isPrefixOf_iff_prefix.mp start
    rfl
  have distinct : (entriesOf slot ks).Nodup := by
    apply List.Nodup.map_on _ (ks.slotsToKeys.distinct.filter _)
    intro a first b second same
    rw [← bytes (List.mem_filter.mp first).2,same,bytes (List.mem_filter.mp second).2]
  apply (List.perm_ext_iff_of_nodup distinct (keysInDistinct slot _)).mpr
  intro key
  rw [entriesOf,List.mem_map]
  constructor
  · rintro ⟨entry,member,rfl⟩
    obtain ⟨key,inSlot,rfl⟩ := (prefixedEntry exact).mp member
    exact inSlot
  · intro inSlot
    exact ⟨indexed key,(prefixedEntry exact).mpr ⟨key,inSlot,rfl⟩,rfl⟩

theorem seekFirst (exact : Exact ks) (some : keysIn slot ks.dict.val ≠ []) :
    ∃ key ∈ keysIn slot ks.dict.val, ∃ rest, seek (slotBytes slot) ks.slotsToKeys.keys = indexed key :: rest := by
  have together := seekTogether (p := slotBytes slot) ks.slotsToKeys.increasing
  have found : ks.slotsToKeys.keys.filter (slotBytes slot).isPrefixOf ≠ [] := by
    obtain ⟨key,member⟩ := List.exists_mem_of_ne_nil _ some
    exact List.ne_nil_of_mem ((prefixedEntry exact).mpr ⟨key,member,rfl⟩)
  rw [← together.2,← together.1] at found
  cases sought : seek (slotBytes slot) ks.slotsToKeys.keys with
  | nil => exact absurd (by simp [sought]) found
  | cons entry rest =>
    have start : (slotBytes slot).isPrefixOf entry = true := by
      cases here : (slotBytes slot).isPrefixOf entry with
      | true => rfl
      | false => exact absurd (by simp [sought,here]) found
    have stored : entry ∈ ks.slotsToKeys.keys :=
      (List.dropWhile_sublist _).subset (by rw [← seek,sought]; exact List.mem_cons_self)
    obtain ⟨key,inSlot,rfl⟩ := (prefixedEntry exact).mp (List.mem_filter.mpr ⟨stored,start⟩)
    exact ⟨key,inSlot,rest,rfl⟩

/-- Nothing outside the slot is changed. -/
structure Untouched (slot : Slot) (before after : Keyspace Value) : Prop where
  values : ∀ key, keyHashSlot key ≠ slot → after.dict.val.find key = before.dict.val.find key
  expires : ∀ key, keyHashSlot key ≠ slot → after.expires.find key = before.expires.find key
  entries : ∀ entry, ¬ slotBytes slot <+: entry → (entry ∈ after.slotsToKeys.keys ↔ entry ∈ before.slotsToKeys.keys)
  counts : ∀ other, other ≠ slot → after.slotsKeysCount other = before.slotsKeysCount other

theorem Untouched.refl : Untouched slot ks ks := ⟨fun _ _ => rfl,fun _ _ => rfl,fun _ _ => .rfl,fun _ _ => rfl⟩

theorem Untouched.trans {first second third : Keyspace Value} (early : Untouched slot first second)
    (late : Untouched slot second third) : Untouched slot first third :=
  ⟨fun key other => (late.values key other).trans (early.values key other),
    fun key other => (late.expires key other).trans (early.expires key other),
    fun entry other => (late.entries entry other).trans (early.entries entry other),
    fun other apart => (late.counts other apart).trans (early.counts other apart)⟩

theorem dbDeleteUntouched (inSlot : key ∈ keysIn slot ks.dict.val) : Untouched slot ks (dbDelete key ks).2 := by
  obtain ⟨hash,present⟩ := memKeysIn.mp inSlot
  rw [dbDelete,if_pos present]
  constructor
  · exact fun k other => Dict.findDeleteOther _ fun same => other (same ▸ hash)
  · exact fun k other => Dict.findDeleteOther _ fun same => other (same ▸ hash)
  · intro entry outside
    simp only [slotToKeyDel,slotToKeyUpdateKey,Bool.false_eq_true,if_false,Sorted.memRemove,and_iff_left_iff_imp]
    rintro _ rfl
    exact outside (hash ▸ List.prefix_append _ _)
  · intro other apart
    simp only [slotToKeyDel,slotToKeyUpdateKey,hash,if_neg apart]

theorem dbDeleteLess (inSlot : key ∈ keysIn slot ks.dict.val) :
    (keysIn slot ks.dict.val).length = (keysIn slot (dbDelete key ks).2.dict.val).length + 1 := by
  obtain ⟨hash,present⟩ := memKeysIn.mp inSlot
  have grown := (grownDelete present).length slot
  rw [if_pos hash] at grown
  simpa [dbDelete,present,slotToKeyDel,slotToKeyUpdateKey] using grown

/-- A round of the loop, as long as the slot has keys. -/
theorem delKeysRound (exact : Exact ks) (some : keysIn slot ks.dict.val ≠ []) :
    ∃ key ∈ keysIn slot ks.dict.val, ∀ fuel j, delKeysInSlot slot (fuel + 1) j ks =
      if j + 1 < 2 ^ 31 then delKeysInSlot slot fuel (j + 1) (dbDelete key ks).2 else .error .intOverflow := by
  obtain ⟨key,inSlot,rest,first⟩ := seekFirst exact some
  refine ⟨key,inSlot,fun fuel j => ?_⟩
  have counted : ks.slotsKeysCount slot ≠ 0 := by
    intro zero
    have length := exact.counted slot
    rw [zero] at length
    exact some (List.eq_nil_of_length_eq_zero length.symm)
  rw [delKeysInSlot,if_neg counted,first]
  rfl

theorem delKeysDone (exact : Exact ks) (none : keysIn slot ks.dict.val = []) (fuel j : Nat) :
    delKeysInSlot slot (fuel + 1) j ks = .ok (UInt32.ofNat j,ks) := by
  have counted : ks.slotsKeysCount slot = 0 := by
    apply UInt64.toNat_inj.mp
    rw [exact.counted,none]
    rfl
  rw [delKeysInSlot,if_pos counted]

theorem delKeysAll {n j : Nat} (exact : Exact ks) (number : (keysIn slot ks.dict.val).length = n)
    (small : j + n < 2 ^ 31) :
    ∃ after, (∀ fuel > n, delKeysInSlot slot fuel j ks = .ok (UInt32.ofNat (j + n),after)) ∧ Exact after ∧
      keysIn slot after.dict.val = [] ∧ Untouched slot ks after := by
  induction n generalizing j ks with
  | zero =>
    have none := List.eq_nil_of_length_eq_zero number
    refine ⟨ks,fun fuel enough => ?_,exact,none,.refl⟩
    obtain ⟨fuel,rfl⟩ := Nat.exists_eq_add_one.mpr enough
    exact delKeysDone exact none fuel j
  | succ n ih =>
    obtain ⟨key,inSlot,round⟩ := delKeysRound exact (List.ne_nil_of_length_eq_add_one number)
    have less := dbDeleteLess inSlot
    obtain ⟨after,result,exactAfter,none,untouched⟩ :=
      ih (exactDbDelete exact key) (by omega) (show j + 1 + n < 2 ^ 31 by omega)
    refine ⟨after,fun fuel enough => ?_,exactAfter,none,(dbDeleteUntouched inSlot).trans untouched⟩
    obtain ⟨fuel,rfl⟩ := Nat.exists_eq_add_one.mpr (Nat.zero_lt_of_lt enough)
    rw [round,if_pos (by omega),result fuel (by omega),Nat.add_right_comm,Nat.add_assoc]

theorem delKeysOverflow {fuel j : Nat} (exact : Exact ks) (large : 2 ^ 31 ≤ j + (keysIn slot ks.dict.val).length)
    (inside : j < 2 ^ 31) (r : UInt32 × Keyspace Value) : delKeysInSlot slot fuel j ks ≠ .ok r := by
  induction fuel generalizing j ks with
  | zero => simp [delKeysInSlot]
  | succ fuel ih =>
    have some : keysIn slot ks.dict.val ≠ [] := by
      intro none
      rw [none,List.length_nil] at large
      omega
    obtain ⟨key,inSlot,round⟩ := delKeysRound exact some
    have less := dbDeleteLess inSlot
    rw [round]
    split
    · next next => exact ih (exactDbDelete exact key) (by omega) next
    · simp

/-- What `delKeysInSlot` owes: it ends, counts the keys it removed, leaves none of the slot and nothing else changed. -/
structure Clears (slot : Slot) (ks after : Keyspace Value) (removed : UInt32) : Prop where
  ends : ∃ enough, ∀ fuel ≥ enough, delKeysInSlot slot fuel 0 ks = .ok (removed,after)
  number : removed.toNat = (keysIn slot ks.dict.val).length
  gone : keysIn slot after.dict.val = [] ∧ entriesOf slot after = [] ∧ after.slotsKeysCount slot = 0
  untouched : Untouched slot ks after

theorem clearsIff (exact : Exact ks) (slot : Slot) :
    (∃ after removed, Clears slot ks after removed) ↔ (keysIn slot ks.dict.val).length < 2 ^ 31 := by
  constructor
  · rintro ⟨after,removed,clears⟩
    obtain ⟨enough,ends⟩ := clears.ends
    by_contra large
    exact delKeysOverflow exact (by omega) (Nat.two_pow_pos 31) _ (ends enough (Nat.le_refl _))
  · intro small
    obtain ⟨after,result,exactAfter,none,untouched⟩ :=
      delKeysAll exact rfl (show 0 + (keysIn slot ks.dict.val).length < 2 ^ 31 by omega)
    refine ⟨after,_,⟨_,fun fuel enough => result fuel enough⟩,?_,⟨none,?_,?_⟩,untouched⟩
    · rw [Nat.zero_add,UInt32.toNat_ofNat',Nat.mod_eq_of_lt (by omega)]
    · exact List.Perm.eq_nil (none ▸ entriesPerm exactAfter slot)
    · apply UInt64.toNat_inj.mp
      rw [exactAfter.counted,none]
      rfl

/-- In every reachable state the tree and the counters are exact, and a slot can be emptied when an `int` counts its keys. -/
theorem slotIndexExact {dbs : Nat} {ops : List (Op Value)} (single : ∀ op ∈ ops, op.Single dbs)
    (run : play dbs ops = .ok ks) (slot : Slot) :
    ((entriesOf slot ks).Perm (keysIn slot ks.dict.val) ∧
      (ks.slotsKeysCount slot).toNat = (keysIn slot ks.dict.val).length) ∧
    ((∃ after removed, Clears slot ks after removed) ↔ (keysIn slot ks.dict.val).length < 2 ^ 31) :=
  have exact := exactPlay single run
  ⟨⟨entriesPerm exact slot,exact.counted slot⟩,clearsIff exact slot⟩

theorem slotIndexExactShown : ∃ ks : Keyspace Nat,
    play 16 [.add [97] 1,.addRDBLoad [98] 2,.overwrite [97] 3,.delete [98]] = .ok ks ∧
    ks.slotsKeysCount (keyHashSlot [97]) = 1 ∧
    ((entriesOf (keyHashSlot [97]) ks).Perm (keysIn (keyHashSlot [97]) ks.dict.val) ∧
      (ks.slotsKeysCount (keyHashSlot [97])).toNat = (keysIn (keyHashSlot [97]) ks.dict.val).length) ∧
    ((∃ after removed, Clears (keyHashSlot [97]) ks after removed) ↔
      (keysIn (keyHashSlot [97]) ks.dict.val).length < 2 ^ 31) :=
  have run : play 16 [.add [97] 1,.addRDBLoad [98] 2,.overwrite [97] 3,.delete [98]] = .ok _ := rfl
  ⟨_,run,rfl,slotIndexExact (by simp [Op.Single]) run (keyHashSlot [97])⟩

end deletion

section crowd

def tagged (n : Nat) : Bytes := [123,97,125] ++ digitsText 10 n

def crowd (n : Nat) : List (Op Unit) := (List.range n).map fun i => .add (tagged i) ()

theorem taggedSlot (n : Nat) : keyHashSlot (tagged n) = keyHashSlot [97] := by
  have part : hashedPart (tagged n) = [97] := by
    simp [hashedPart,tagged,isOpen,isClose,digitsTextLength]
  have bare : hashedPart [97] = [97] := by decide
  simp only [keyHashSlot,part,bare]

theorem taggedInj {m n : Nat} (first : m < 10 ^ 10) (second : n < 10 ^ 10) (same : tagged m = tagged n) : m = n := by
  have digits := congrArg (digitsValue 0) (List.append_cancel_left same)
  rwa [digitsValueText,digitsValueText,Nat.mod_eq_of_lt first,Nat.mod_eq_of_lt second,Nat.add_right_inj] at digits

theorem crowdRun (dbs : Nat) {n : Nat} (small : n ≤ 10 ^ 10) :
    ∃ ks, play dbs (crowd n) = .ok ks ∧ ks.dict.val.entries.map Prod.fst = (List.range n).map tagged := by
  induction n with
  | zero => exact ⟨fresh,rfl,rfl⟩
  | succ n ih =>
    obtain ⟨ks,run,keys⟩ := ih (by omega)
    have absent : ks.dict.val.has (tagged n) = false := by
      rw [Bool.eq_false_iff]
      intro present
      obtain ⟨e,member,same⟩ := (Dict.hasIff _ _).mp present
      have listed := List.mem_map_of_mem (f := Prod.fst) member
      rw [keys,List.mem_map] at listed
      obtain ⟨i,below,again⟩ := listed
      have early := List.mem_range.mp below
      have clash := taggedInj (by omega) (by omega) (again.trans same)
      omega
    have entries : (ks.dict.val.replace (tagged n,())).entries = ks.dict.val.entries ++ [(tagged n,())] :=
      congrArg (fun d : Store Unit => d.entries ++ [(tagged n,())]) (Dict.deleteIdle absent)
    have room : (ks.dict.val.replace (tagged n,())).size < 2 ^ 64 := by
      have size := congrArg List.length keys
      rw [List.length_map,List.length_map,List.length_range] at size
      rw [Dict.size,entries,List.length_append,size,List.length_singleton]
      omega
    have added : dictAdd ks.dict (tagged n) () = .ok (some ⟨_,room⟩) := by
      rw [dictAdd,if_neg (by simp [absent]),dif_pos room]
    refine ⟨slotToKeyAdd (tagged n) { ks with dict := ⟨_,room⟩ },?_,?_⟩
    · simp only [crowd,List.range_succ,List.map_append,List.map_singleton,play,List.foldlM_append]
      refine bindOk.mpr ⟨ks,run,?_⟩
      simp only [List.foldlM_cons,List.foldlM_nil,apply,dbAdd,added]
      rfl
    · simp [slotToKeyAdd,slotToKeyUpdateKey,entries,keys,List.range_succ]

/-- A slot of 2^31 keys: the loop counts them in an `int`. -/
theorem crowdedSlot : ¬ ∀ (ops : List (Op Unit)) (ks : Keyspace Unit), (∀ op ∈ ops, op.Single 16) →
    play 16 ops = .ok ks →
    ∀ slot, ∃ after removed, Clears slot ks after removed := by
  intro every
  have single : ∀ op ∈ crowd (2 ^ 31), op.Single 16 := by
    intro op member
    obtain ⟨i,_,rfl⟩ := List.mem_map.mp member
    trivial
  obtain ⟨ks,run,keys⟩ := crowdRun 16 (show 2 ^ 31 ≤ 10 ^ 10 by norm_num)
  have all : keysIn (keyHashSlot [97]) ks.dict.val = (List.range (2 ^ 31)).map tagged := by
    rw [keysIn,keys]
    apply List.filter_eq_self.mpr
    intro key member
    obtain ⟨i,_,rfl⟩ := List.mem_map.mp member
    simpa using taggedSlot i
  have small := (clearsIff (exactPlay single run) (keyHashSlot [97])).mp (every _ ks single run _)
  rw [all,List.length_map,List.length_range] at small
  omega

end crowd
end HpuCache.SlotKeys
