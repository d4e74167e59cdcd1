import HpuCache.KeyedDict
import HpuCache.KeySlot
import HpuCache.PageScan
import HpuCache.SortedKeys

/-! The keys of a node and the radix tree that lists them by slot. The tree is walked
in the order of its bytes, so the keys of one slot are met together and in a fixed
order, and a page of them is cut at an offset and a count. -/
namespace HpuCache.SlotIndex
open ByteText KeySlot KeyedDict PageScan SortedKeys

/-- The two bytes of the slot that stand before each of its keys. -/
def slotBytes (slot : Slot) : Bytes := [UInt8.ofNat (slot.val / 256),UInt8.ofNat (slot.val % 256)]

def indexed (key : Bytes) : Bytes := slotBytes (keyHashSlot key) ++ key

variable {Value : Type}

abbrev Store (Value : Type) := Dict (Prod.fst : Bytes × Value → Bytes)

/-- A node whose keys are also in `slots_to_keys`: the entries stand in the order of the tree. -/
structure Db (Value : Type) where
  store : Store Value
  sorted : (store.entries.map (fun e => indexed e.1)).Pairwise (· < ·)

def Db.slotsToKeys (db : Db Value) : List Bytes := db.store.entries.map (fun e => indexed e.1)

def Db.dbDelete (db : Db Value) (key : Bytes) : Db Value :=
  ⟨db.store.delete key,db.sorted.sublist (List.filter_sublist.map _)⟩

/-- The keys of `slots_to_keys` from the offset `based` on, at most `count` of them. -/
def getKeysInSlot (slot : Slot) (count based : Nat) (slotsToKeys : List Bytes) : List Bytes :=
  let inSlot := (slotBytes slot).isPrefixOf
  (gather inSlot count (skip inSlot based (seek (slotBytes slot) slotsToKeys))).map (fun e => e.drop 2)

def keysOf (slot : Slot) (db : Db Value) : List Bytes :=
  (db.store.entries.map Prod.fst).filter (fun key => keyHashSlot key = slot)

def countKeysInSlot (slot : Slot) (db : Db Value) : Nat := (keysOf slot db).length

def getkeysinslot (slot : Slot) (maxkeys offset : Nat) (db : Db Value) : List Bytes :=
  getKeysInSlot slot (min maxkeys (countKeysInSlot slot db)) offset db.slotsToKeys

theorem slotBytesInj {a b : Slot} (same : slotBytes a = slotBytes b) : a = b := by
  have high := congrArg (fun l => (l.headD 0).toNat) same
  have low := congrArg (fun l => (l.getD 1 0).toNat) same
  have aSmall := a.isLt
  have bSmall := b.isLt
  simp only [slotBytes,List.headD_cons,List.getD_cons_succ,List.getD_cons_zero,UInt8.toNat_ofNat'] at high low
  exact Fin.ext (by omega)

@[simp] theorem indexedEq {a b : Bytes} : indexed a = indexed b ↔ a = b := by
  refine ⟨fun same => ?_,congrArg indexed⟩
  simpa [indexed,slotBytes] using congrArg (List.drop 2) same

theorem indexedPrefix (slot : Slot) (key : Bytes) :
    (slotBytes slot).isPrefixOf (indexed key) = decide (keyHashSlot key = slot) := by
  rw [Bool.eq_iff_iff,List.isPrefixOf_iff_prefix,decide_eq_true_eq]
  constructor
  · intro inside
    have same := (List.prefix_of_prefix_length_le inside (List.prefix_append (slotBytes (keyHashSlot key)) key)
      (by simp [slotBytes]))
    exact (slotBytesInj (same.eq_of_length (by simp [slotBytes]))).symm
  · rintro rfl
    exact List.prefix_append _ _

theorem getkeysinslotPage (slot : Slot) (maxkeys offset : Nat) (db : Db Value) :
    getkeysinslot slot maxkeys offset db = ((keysOf slot db).drop offset).take maxkeys := by
  have together := seekTogether (p := slotBytes slot) db.sorted
  have keys : ((db.store.entries.map (fun e => indexed e.1)).filter (slotBytes slot).isPrefixOf).map
      (fun e => e.drop 2) = keysOf slot db := by
    rw [List.filter_map,List.map_map,keysOf,List.filter_map]
    have same : ((slotBytes slot).isPrefixOf ∘ fun e : Bytes × Value => indexed e.1) =
        (fun key => decide (keyHashSlot key = slot)) ∘ Prod.fst := funext (fun e => indexedPrefix slot e.1)
    rw [same]
    rfl
  rw [getkeysinslot,getKeysInSlot,Db.slotsToKeys,pageCut _ together.1,together.2]
  simp only [List.map_take,List.map_drop]
  rw [keys,countKeysInSlot,List.take_eq_take_iff]
  simp only [List.length_drop]
  omega

theorem memKeysOf {slot : Slot} {db : Db Value} {key : Bytes} :
    key ∈ keysOf slot db ↔ keyHashSlot key = slot ∧ ∃ value, (key,value) ∈ db.store.entries := by
  simp [keysOf,and_comm]

theorem keysDistinct (slot : Slot) (db : Db Value) : (keysOf slot db).Nodup := db.store.distinct.filter _

/-- The value is put where the tree has the key, or would have it. -/
def putEntry (e : Bytes × Value) : List (Bytes × Value) → List (Bytes × Value)
  | [] => [e]
  | f :: rest =>
    if indexed e.1 < indexed f.1 then e :: f :: rest
    else if indexed e.1 = indexed f.1 then e :: rest
    else f :: putEntry e rest

theorem putEntryIndexed (e : Bytes × Value) (entries : List (Bytes × Value)) :
    (putEntry e entries).map (fun f => indexed f.1) = insertInto (indexed e.1) (entries.map fun f => indexed f.1) := by
  induction entries with
  | nil => rfl
  | cons f rest ih =>
    simp only [putEntry,insertInto,List.map_cons]
    split
    · rfl
    · split
      · next same => rw [List.map_cons,same]
      · rw [List.map_cons,ih]

theorem findPutEntry (e : Bytes × Value) (entries : List (Bytes × Value)) (key : Bytes) :
    (putEntry e entries).find? (fun f => f.1 = key) =
      if e.1 = key then some e else entries.find? (fun f => f.1 = key) := by
  induction entries with
  | nil => by_cases here : e.1 = key <;> simp [putEntry,here]
  | cons f rest ih =>
    rw [putEntry]
    split
    · by_cases here : e.1 = key <;> simp [List.find?_cons,here]
    · split
      · next same =>
        rw [indexedEq] at same
        by_cases here : e.1 = key
        · simp [here]
        · simp [here,← same]
      · next other =>
        rw [indexedEq] at other
        by_cases there : f.1 = key
        · have apart : e.1 ≠ key := fun same => other (same.trans there.symm)
          simp [there,apart]
        · simp [there,ih]

def Db.setKey (db : Db Value) (e : Bytes × Value) : Db Value :=
  have sorted : ((putEntry e db.store.entries).map (fun f => indexed f.1)).Pairwise (· < ·) := by
    rw [putEntryIndexed]
    exact insertIncreasing db.sorted
  have distinct : ((putEntry e db.store.entries).map Prod.fst).Nodup := by
    have apart : ((putEntry e db.store.entries).map (fun f => indexed f.1)).Nodup := sorted.imp (by
      rintro a b less rfl
      exact Std.Irrefl.irrefl a less)
    have split : (fun f : Bytes × Value => indexed f.1) = indexed ∘ Prod.fst := rfl
    rw [split,← List.map_map] at apart
    exact apart.of_map _
  ⟨⟨putEntry e db.store.entries,distinct⟩,sorted⟩

theorem findSetKey (db : Db Value) (e : Bytes × Value) (key : Bytes) :
    (db.setKey e).store.find key = if e.1 = key then some e else db.store.find key :=
  findPutEntry e db.store.entries key

end HpuCache.SlotIndex
