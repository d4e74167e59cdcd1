import HpuCache.SlotMove
import Mathlib.Algebra.Order.Floor.Div

/-! Listing a slot page by page at growing offsets, with the widths of the counters: the server
takes the offset as an unsigned int and counts the listed keys in an int, and the manager adds
the page size to an int before it looks whether the page is empty. -/
namespace HpuCache.PagedCopy
open KeySlot KeyedDict ByteText SlotIndex SlotMove

variable {Value : Type}

def intMax : Nat := 2 ^ 31 - 1

/-- CLUSTER GETKEYSINSLOT; `none` when the int that counts the listed keys overflows. -/
def getkeysinslotCommand (slot : Slot) (maxkeys offset : Nat) (db : Db Value) : Option (List Bytes) :=
  let keysInSlot := countKeysInSlot slot db % 2 ^ 32
  let keys := getKeysInSlot slot (min maxkeys keysInSlot) (offset % 2 ^ 32) db.slotsToKeys
  if keys.length ≤ intMax then some keys else none

/-- The pages at the offsets `offset`, `offset + p` and so on, until one is empty. -/
def readPages (slot : Slot) (p : Nat) (db : Db Value) : Nat → Nat → Option (List Bytes)
  | 0, _ => none
  | fuel + 1, offset => do
    let page ← getkeysinslotCommand slot p offset db
    if page.isEmpty then some [] else (readPages slot p db fuel (offset + p)).map fun rest => page ++ rest

def pages (slot : Slot) (p : Nat) (db : Db Value) : Nat := ((keysOf slot db).length + (p - 1)) / p

section listing
variable {slot : Slot} {p offset : Nat} {db : Db Value}

theorem pagesCover (slot : Slot) (db : Db Value) (positive : 1 ≤ p) : (keysOf slot db).length ≤ pages slot p db * p ∧
    pages slot p db * p ≤ (keysOf slot db).length + (p - 1) := by
  have split := Nat.div_add_mod ((keysOf slot db).length + (p - 1)) p
  have rest := Nat.mod_lt ((keysOf slot db).length + (p - 1)) positive
  rw [Nat.mul_comm] at split
  simp only [pages]
  omega

theorem listingPage (slot : Slot) (p offset : Nat) (db : Db Value) : getkeysinslotCommand slot p offset db =
    let page := ((keysOf slot db).drop (offset % 2 ^ 32)).take (min p ((keysOf slot db).length % 2 ^ 32))
    if page.length ≤ intMax then some page else none := by
  have inside : (keysOf slot db).length % 2 ^ 32 ≤ (keysOf slot db).length := Nat.mod_le _ _
  have cut := getkeysinslotPage slot (min p (countKeysInSlot slot db % 2 ^ 32)) (offset % 2 ^ 32) db
  rw [getkeysinslot,Nat.min_eq_left (by simp only [countKeysInSlot]; omega)] at cut
  simp only [getkeysinslotCommand,cut]
  rfl

theorem listingSmall (small : (keysOf slot db).length < 2 ^ 32) (few : min p (keysOf slot db).length ≤ intMax) :
    getkeysinslotCommand slot p offset db = some (((keysOf slot db).drop (offset % 2 ^ 32)).take p) := by
  have cut : ((keysOf slot db).drop (offset % 2 ^ 32)).take (min p (keysOf slot db).length) =
      ((keysOf slot db).drop (offset % 2 ^ 32)).take p := by
    rw [List.take_eq_take_iff,List.length_drop]
    omega
  rw [listingPage,Nat.mod_eq_of_lt small,cut]
  refine if_pos ?_
  rw [List.length_take,List.length_drop]
  omega

theorem listingExact {page : List Bytes} (small : (keysOf slot db).length < 2 ^ 32) (below : offset < 2 ^ 32)
    (listed : getkeysinslotCommand slot p offset db = some page) : page = ((keysOf slot db).drop offset).take p := by
  rw [listingPage,Nat.mod_eq_of_lt small,Nat.mod_eq_of_lt below] at listed
  dsimp only at listed
  split at listed <;> try contradiction
  rw [← Option.some.inj listed,List.take_eq_take_iff,List.length_drop]
  omega

theorem pageWithin (small : (keysOf slot db).length < 2 ^ 32) (few : min p (keysOf slot db).length ≤ intMax)
    (within : offset < (keysOf slot db).length) :
    getkeysinslotCommand slot p offset db = some (((keysOf slot db).drop offset).take p) := by
  rw [listingSmall small few,Nat.mod_eq_of_lt (within.trans small)]

theorem pageSome (positive : 1 ≤ p) (within : offset < (keysOf slot db).length) :
    (((keysOf slot db).drop offset).take p).isEmpty = false := by
  rw [List.isEmpty_eq_false_iff,← List.length_pos_iff,List.length_take,List.length_drop]
  omega

theorem pageJoins (ks : List Bytes) (p offset : Nat) :
    (ks.drop offset).take p ++ ks.drop (offset + p) = ks.drop offset := by
  rw [← List.drop_drop]
  exact List.take_append_drop p (ks.drop offset)

/-- With more keys than 32 bits count there is no empty page, or nothing but empty pages. -/
theorem readLarge (positive : 1 ≤ p) (large : 2 ^ 32 ≤ (keysOf slot db).length)
    (counted : 0 < (keysOf slot db).length % 2 ^ 32) (fuel offset : Nat) : readPages slot p db fuel offset = none := by
  induction fuel generalizing offset with
  | zero => rfl
  | succ fuel ih =>
    have below : offset % 2 ^ 32 < 2 ^ 32 := Nat.mod_lt _ (by decide)
    simp only [readPages,ih,Option.map_none]
    cases page : getkeysinslotCommand slot p offset db with
    | none => rfl
    | some keys =>
      have shape := listingPage slot p offset db
      rw [page] at shape
      dsimp only at shape
      split at shape <;> try contradiction
      obtain rfl := Option.some.inj shape
      have filled : ¬ ((keysOf slot db).drop (offset % 2 ^ 32)).take
          (min p ((keysOf slot db).length % 2 ^ 32)) = [] := by
        rw [← List.length_eq_zero_iff,List.length_take,List.length_drop]
        omega
      exact if_neg fun none => filled (List.isEmpty_iff.mp none)

theorem readRest (positive : 1 ≤ p) (small : (keysOf slot db).length < 2 ^ 32)
    (few : min p (keysOf slot db).length ≤ intMax) {r fuel : Nat} {keys : List Bytes}
    (there : offset + r * p = pages slot p db * p) (read : readPages slot p db fuel offset = some keys) :
    ∃ fuel' rest, readPages slot p db fuel' (pages slot p db * p) = some rest ∧
      keys = (keysOf slot db).drop offset ++ rest := by
  have cover := pagesCover slot db positive
  induction r generalizing fuel offset keys with
  | zero =>
    obtain rfl : offset = pages slot p db * p := by omega
    exact ⟨fuel,keys,read,by rw [List.drop_eq_nil_of_le cover.1,List.nil_append]⟩
  | succ r ih =>
    rw [Nat.succ_mul] at there
    have within : offset < (keysOf slot db).length := by omega
    cases fuel with
    | zero => contradiction
    | succ fuel =>
      simp only [readPages,pageWithin small few within,bind,Option.bind_some,pageSome positive within,Bool.false_eq_true,
        if_false,Option.map_eq_some_iff] at read
      obtain ⟨later,read,rfl⟩ := read
      have there : offset + p + r * p = pages slot p db * p := by omega
      obtain ⟨fuel',rest,last,rfl⟩ := ih there read
      exact ⟨fuel',rest,last,by rw [← List.append_assoc,pageJoins]⟩

theorem readAll (positive : 1 ≤ p) (few : min p (keysOf slot db).length ≤ intMax)
    (past : (keysOf slot db).length ≤ pages slot p db * p % 2 ^ 32) {r : Nat}
      (there : offset + r * p = pages slot p db * p) :
    readPages slot p db (r + 1) offset = some ((keysOf slot db).drop offset) := by
  have cover := pagesCover slot db positive
  have small : (keysOf slot db).length < 2 ^ 32 := past.trans_lt (Nat.mod_lt _ (by decide))
  induction r generalizing offset with
  | zero =>
    obtain rfl : offset = pages slot p db * p := by omega
    simp only [readPages,listingSmall small few,List.drop_eq_nil_of_le past,List.drop_eq_nil_of_le cover.1,List.take_nil]
    rfl
  | succ r ih =>
    rw [Nat.succ_mul] at there
    have within : offset < (keysOf slot db).length := by omega
    rw [readPages,pageWithin small few within]
    simp only [bind,Option.bind_some,pageSome positive within,Bool.false_eq_true,if_false]
    rw [ih (by omega),Option.map_some,pageJoins]

theorem readingIff (positive : 1 ≤ p) : (∃ fuel, readPages slot p db fuel 0 = some (keysOf slot db)) ↔
    (keysOf slot db).length ≤ pages slot p db * p % 2 ^ 32 ∧ min p (keysOf slot db).length ≤ intMax := by
  have cover := pagesCover slot db positive
  constructor
  · rintro ⟨fuel,read⟩
    cases fuel with
    | zero => contradiction
    | succ fuel =>
      have first := listingPage slot p 0 db
      have whole := read
      simp only [readPages,first,Nat.zero_mod,List.drop_zero,List.length_take,bind,Option.bind_eq_some_iff] at read
      obtain ⟨page,fits,read⟩ := read
      split at fits <;> try contradiction
      rename_i few
      obtain rfl := Option.some.inj fits
      by_cases counted : (keysOf slot db).length % 2 ^ 32 = 0
      · rw [counted,Nat.min_zero,List.take_zero,List.isEmpty_nil,if_pos rfl] at read
        have none : (keysOf slot db).length = 0 := by rw [← Option.some.inj read]; rfl
        simp [none]
      · have small : (keysOf slot db).length < 2 ^ 32 := by
          by_contra large
          rw [readLarge positive (by omega) (by omega)] at whole
          contradiction
        rw [Nat.mod_eq_of_lt small] at few
        have few : min p (keysOf slot db).length ≤ intMax := by omega
        refine ⟨?_,few⟩
        have start : 0 + pages slot p db * p = pages slot p db * p := Nat.zero_add _
        obtain ⟨fuel',rest,last,split⟩ := readRest positive small few start whole
        obtain rfl : rest = [] := by simpa using split
        cases fuel' with
        | zero => contradiction
        | succ fuel' =>
          simp only [readPages,listingSmall small few,bind,Option.bind_some] at last
          split at last
          · rename_i past
            have length := congrArg List.length (List.isEmpty_iff.mp past)
            rw [List.length_take,List.length_drop] at length
            simp only [List.length_nil] at length
            omega
          · rename_i filled
            obtain ⟨later,_,joined⟩ := Option.map_eq_some_iff.mp last
            exact absurd (List.isEmpty_iff.mpr (List.append_eq_nil_iff.mp joined).1) filled
  · rintro ⟨past,few⟩
    have start : 0 + pages slot p db * p = pages slot p db * p := Nat.zero_add _
    exact ⟨_,readAll positive few past start⟩

end listing

structure PageRequest where
  keys : List Bytes
  reply : Option MigrateReply

inductive Ending where
  -- More rounds are needed than are given.
  | running
  -- A signed counter overflows.
  | fault
  | returned (success : Bool)
  deriving DecidableEq, Repr

structure Managed (Value : Type) where
  ends : Ends Value
  requests : List PageRequest
  -- The connection to the source is still up.
  link : Bool
  ending : Ending

def clusterManagerMigrateKeysInSlotHelp (o : Options Value) (slot : Slot) (pipeline : Nat) (copy : Bool) :
    List Round → Nat → Bool → Ends Value → Managed Value
  | [], _, link, ends => ⟨ends,[],link,.running⟩
  | round :: rest, offset, link, ends =>
    if !link || decide (round.listing ≠ .keys) then ⟨ends,[],link && decide (round.listing ≠ .null),.returned false⟩
    else
      match getkeysinslotCommand slot pipeline offset ends.source with
      | none => ⟨ends,[],link,.fault⟩
      | some keys =>
        -- `offset += pipeline` comes before the test for an empty page.
        if intMax < offset + pipeline then ⟨ends,[],link,.fault⟩
        else if keys.isEmpty then ⟨ends,[],link,.returned true⟩
        else
          let request := ⟨keys,(clusterManagerMigrateKeysInReply round.first false copy keys ends).2⟩
          let r := migratePage o copy round keys ends
          if r.success then
            let later := clusterManagerMigrateKeysInSlotHelp o slot pipeline copy rest (offset + pipeline) r.link r.ends
            { later with requests := request :: later.requests }
          else ⟨r.ends,[request],r.link,.returned false⟩

def clusterManagerCopySlot (o : Options Value) (slot : Slot) (pipeline : Nat) (rounds : List Round) (link : Bool)
    (ends : Ends Value) : Managed Value :=
  clusterManagerMigrateKeysInSlotHelp o slot pipeline true rounds 0 link ends

/-- While every listing and every MIGRATE is answered, the copy ends as a success and has
asked for each key of the slot once, in their order. -/
def CopiesOnce (o : Options Value) (slot : Slot) (pipeline : Nat) (source : Db Value) : Prop :=
  ∀ target rounds, (keysOf slot source).length < rounds.length → (∀ round ∈ rounds, round.listing = .keys) →
    (∀ request ∈ (clusterManagerCopySlot o slot pipeline rounds true ⟨source,target⟩).requests,
      request.reply = some .ok) →
    (clusterManagerCopySlot o slot pipeline rounds true ⟨source,target⟩).ending = .returned true ∧
      (clusterManagerCopySlot o slot pipeline rounds true ⟨source,target⟩).requests.flatMap PageRequest.keys = keysOf slot source

section copies
variable {o : Options Value} {slot : Slot} {pipeline offset : Nat} {keys : List Bytes}
    {ends : Ends Value} {round : Round}
  {rounds : List Round} {link : Bool}

theorem readKeepsSource (fate : Bytes → Fate) (replace : Bool) (p : Progress Value) (e : Bytes × Value) :
    (readReply fate replace true p e).ends.source = p.ends.source := by
  simp only [readReply,if_true]
  repeat' split
  all_goals rfl

theorem foldKeepsSource (fate : Bytes → Fate) (replace : Bool) (present : List (Bytes × Value)) (p : Progress Value) :
    (present.foldl (readReply fate replace true) p).ends.source = p.ends.source := by
  induction present generalizing p with
  | nil => rfl
  | cons e rest ih => rw [List.foldl_cons,ih,readKeepsSource]

theorem copyKeepsSource (req : Request) (replace : Bool) (keys : List Bytes) (ends : Ends Value) :
    (migrateCommand req replace true keys ends).1.source = ends.source := by
  unfold migrateCommand
  dsimp only
  split
  · rfl
  split
  · rfl
  split <;> rw [foldKeepsSource,firstSource]

theorem pageOk (ok : (clusterManagerMigrateKeysInReply round.first false true keys ends).2 = some .ok) :
    migratePage o true round keys ends = ⟨(migrateCommand round.first false true keys ends).1,true,true⟩ := by
  simp only [migratePage,ok]
  rfl

theorem pageKeepsSource (o : Options Value) (round : Round) (keys : List Bytes) (ends : Ends Value) :
    (migratePage o true round keys ends).ends.source = ends.source := by
  unfold migratePage retryPage clusterManagerMigrateKeysInReply
  dsimp only
  repeat' split
  all_goals simp only [copyKeepsSource]

/-- Where no counter overflows, the copy runs as it does over unbounded counters. -/
theorem managedUnbounded (small : (keysOf slot ends.source).length < 2 ^ 32) (below : offset ≤ intMax) {success : Bool}
    (ended : (clusterManagerMigrateKeysInSlotHelp o slot pipeline true rounds offset link ends).ending = .returned success) :
    SlotMove.clusterManagerMigrateKeysInSlotHelp o slot pipeline true rounds offset link ends =
      some ((clusterManagerMigrateKeysInSlotHelp o slot pipeline true rounds offset link ends).ends,success) := by
  have width : intMax < 2 ^ 32 := by decide
  induction rounds generalizing offset link ends with
  | nil => contradiction
  | cons round rest ih =>
    unfold clusterManagerMigrateKeysInSlotHelp at ended ⊢
    unfold SlotMove.clusterManagerMigrateKeysInSlotHelp
    split at ended
    · rename_i broken
      obtain rfl := Ending.returned.inj ended
      rw [if_pos broken,if_pos broken]
    rename_i unbroken
    rw [if_neg unbroken,if_neg unbroken]
    cases listed : getkeysinslotCommand slot pipeline offset ends.source with
    | none => simp [listed] at ended
    | some keys =>
      have page : keys = getkeysinslot slot pipeline offset ends.source := by
        rw [listingExact small (by omega) listed,getkeysinslotPage]
      simp only [listed,← page] at ended ⊢
      split at ended
      · contradiction
      rename_i fits
      rw [if_neg fits]
      split at ended
      · rename_i none
        obtain rfl := Ending.returned.inj ended
        rw [if_pos none,if_pos none]
      rename_i filled
      rw [if_neg filled,if_neg filled]
      split at ended
      · rename_i ok
        rw [if_pos ok,if_pos ok]
        exact ih (by rwa [pageKeepsSource]) (by omega) ended
      · rename_i failed
        obtain rfl := Ending.returned.inj ended
        rw [if_neg failed,if_neg failed]

theorem roundMoves (fits : offset + pipeline ≤ intMax) (listing : round.listing = .keys)
    (page : getkeysinslotCommand slot pipeline offset ends.source = some keys) (filled : keys.isEmpty = false)
    (ok : ∀ request ∈ (clusterManagerMigrateKeysInSlotHelp o slot pipeline true
      (round :: rounds) offset true ends).requests,
      request.reply = some .ok) :
    ∃ after, after.source = ends.source ∧
      (clusterManagerMigrateKeysInSlotHelp o slot pipeline true (round :: rounds) offset true ends).requests =
        ⟨keys,some .ok⟩ :: (clusterManagerMigrateKeysInSlotHelp o slot pipeline true rounds
          (offset + pipeline) true after).requests ∧
      (clusterManagerMigrateKeysInSlotHelp o slot pipeline true (round :: rounds) offset true ends).ending =
        (clusterManagerMigrateKeysInSlotHelp o slot pipeline true rounds (offset + pipeline) true after).ending := by
  have unbroken : (!true || decide (round.listing ≠ .keys)) = false := by simp [listing]
  simp only [clusterManagerMigrateKeysInSlotHelp,unbroken,page,
    if_neg (Nat.not_lt.mpr fits),filled,Bool.false_eq_true,if_false] at ok ⊢
  have reply : (clusterManagerMigrateKeysInReply round.first false true keys ends).2 = some .ok := by
    split at ok <;> exact ok _ List.mem_cons_self
  refine ⟨(migrateCommand round.first false true keys ends).1,copyKeepsSource _ _ _ _,?_⟩
  simp only [pageOk reply,reply,if_true,and_self]

theorem copyAll {db : Db Value} (positive : 1 ≤ pipeline)
    (bounded : (pages slot pipeline db + 1) * pipeline ≤ intMax) {r : Nat}
    (there : offset + r * pipeline = pages slot pipeline db * pipeline) (enough : r < rounds.length)
    (listings : ∀ round ∈ rounds, round.listing = .keys) (source : ends.source = db)
    (ok : ∀ request ∈ (clusterManagerMigrateKeysInSlotHelp o slot pipeline true rounds offset true ends).requests,
      request.reply = some .ok) :
    (clusterManagerMigrateKeysInSlotHelp o slot pipeline true rounds offset true ends).ending = .returned true ∧
      (clusterManagerMigrateKeysInSlotHelp o slot pipeline true rounds offset true ends).requests.flatMap PageRequest.keys =
        (keysOf slot db).drop offset := by
  have cover := pagesCover slot db positive
  have width : intMax < 2 ^ 32 := by decide
  rw [Nat.succ_mul] at bounded
  have small : (keysOf slot db).length < 2 ^ 32 := by omega
  have few : min pipeline (keysOf slot db).length ≤ intMax := by omega
  induction r generalizing offset rounds ends with
  | zero =>
    obtain rfl : offset = pages slot pipeline db * pipeline := by omega
    obtain ⟨round,rest,rfl⟩ := List.exists_cons_of_length_pos enough
    have unbroken : (!true || decide (round.listing ≠ .keys)) = false := by simp [listings round List.mem_cons_self]
    have past : pages slot pipeline db * pipeline % 2 ^ 32 = pages slot pipeline db * pipeline :=
        Nat.mod_eq_of_lt (by omega)
    have empty : getkeysinslotCommand slot pipeline (pages slot pipeline db * pipeline) db = some [] := by
      rw [listingSmall small few,past,List.drop_eq_nil_of_le cover.1,List.take_nil]
    simp only [clusterManagerMigrateKeysInSlotHelp,unbroken,source,empty,
      if_neg (Nat.not_lt.mpr bounded),List.isEmpty_nil,
      Bool.false_eq_true,if_false,if_true,List.flatMap_nil,List.drop_eq_nil_of_le cover.1,and_self]
  | succ r ih =>
    rw [Nat.succ_mul] at there
    have within : offset < (keysOf slot db).length := by omega
    obtain ⟨round,rest,rfl⟩ := List.exists_cons_of_length_pos (Nat.zero_lt_of_lt enough)
    have page : getkeysinslotCommand slot pipeline offset ends.source =
        some (((keysOf slot db).drop offset).take pipeline) := by
      rw [source]
      exact pageWithin small few within
    obtain ⟨after,kept,requests,ending⟩ :=
      roundMoves (by omega) (listings round List.mem_cons_self) page (pageSome positive within) ok
    rw [requests] at ok ⊢
    rw [ending]
    have next : offset + pipeline + r * pipeline = pages slot pipeline db * pipeline := by omega
    obtain ⟨done,asked⟩ := ih next (by simpa using enough) (fun next inside =>
        listings next (List.mem_cons_of_mem _ inside))
      (kept.trans source) (fun request inside => ok request (List.mem_cons_of_mem _ inside))
    exact ⟨done,by rw [List.flatMap_cons,asked,pageJoins]⟩

theorem listingShort {page : List Bytes} {db : Db Value} 
    (listed : getkeysinslotCommand slot pipeline offset db = some page) :
    page.length ≤ pipeline ∧ (offset < 2 ^ 32 → ∀ key ∈ page, key ∈ ((keysOf slot db).drop offset).take pipeline) ∧
      page.Nodup := by
  rw [listingPage] at listed
  dsimp only at listed
  split at listed <;> try contradiction
  obtain rfl := Option.some.inj listed
  refine ⟨?_,fun within key inside => ?_,?_⟩
  · rw [List.length_take]
    omega
  · rw [Nat.mod_eq_of_lt within] at inside
    exact (List.take_sublist_take_left (Nat.min_le_left _ _)).subset inside
  · exact (keysDistinct slot db).sublist ((List.take_sublist _ _).trans (List.drop_sublist _ _))

theorem copyBound (ended : (clusterManagerMigrateKeysInSlotHelp o slot pipeline true rounds offset link ends).ending =
      .returned true) :
    ∃ k, ((clusterManagerMigrateKeysInSlotHelp o slot pipeline true rounds offset link ends).requests.flatMap
      PageRequest.keys).length ≤ k * pipeline ∧ offset + (k + 1) * pipeline ≤ intMax := by
  induction rounds generalizing offset link ends with
  | nil => contradiction
  | cons round rest ih =>
    unfold clusterManagerMigrateKeysInSlotHelp at ended ⊢
    split at ended
    · cases Ending.returned.inj ended
    rename_i unbroken
    rw [if_neg unbroken]
    cases listed : getkeysinslotCommand slot pipeline offset ends.source with
    | none => simp [listed] at ended
    | some keys =>
      simp only [listed] at ended ⊢
      split at ended
      · contradiction
      rename_i fits
      rw [if_neg fits]
      split at ended
      · rename_i none
        rw [if_pos none]
        exact ⟨0,by simp,by omega⟩
      rename_i filled
      rw [if_neg filled]
      split at ended
      · rename_i success
        rw [if_pos success]
        obtain ⟨k,total,below⟩ := ih ended
        refine ⟨k + 1,?_,?_⟩
        · rw [List.flatMap_cons,List.length_append,Nat.succ_mul]
          have short := (listingShort listed).1
          dsimp only
          omega
        · rw [Nat.succ_mul]
          omega
      · cases Ending.returned.inj ended

theorem answeredCopyFold {present : List (Bytes × Value)} {p : Progress Value} (distinct : (present.map Prod.fst).Nodup)
    (free : ∀ e ∈ present, p.ends.target.has e.1 = false) (clean : p.error = none ∧ p.socketError = false) :
    let last := present.foldl (readReply answeredRequest.fate false true) p
    last.error = none ∧ last.socketError = false ∧
      ∀ key, key ∉ present.map Prod.fst → last.ends.target.has key = p.ends.target.has key := by
  induction present generalizing p with
  | nil => exact ⟨clean.1,clean.2,fun _ _ => rfl⟩
  | cons e rest ih =>
    obtain ⟨fresh,distinct⟩ := List.nodup_cons.mp distinct
    have step : readReply answeredRequest.fate false true p e =
        { p with ends := ⟨p.ends.source,p.ends.target.replace e⟩ } := by
      simp [readReply,answeredRequest,restore,clean.2,free e List.mem_cons_self]
    rw [List.foldl_cons,step]
    obtain ⟨error,socket,still⟩ := ih (p := { p with ends := ⟨p.ends.source,p.ends.target.replace e⟩ }) distinct
      (fun f inside => by
        rw [Dict.hasReplace,free f (List.mem_cons_of_mem _ inside)]
        have other : e.1 ≠ f.1 := fun same => fresh (same ▸ List.mem_map_of_mem inside)
        simpa using other) clean
    refine ⟨error,socket,fun key outside => ?_⟩
    rw [List.map_cons,List.mem_cons,not_or] at outside
    rw [still key outside.2,Dict.hasReplace]
    simp [Ne.symm outside.1]

theorem answeredCopyPage (distinct : keys.Nodup) (filled : keys ≠ [])
    (here : ∀ key ∈ keys, ends.source.store.has key = true)
    (free : ∀ key ∈ keys, ends.target.has key = false) :
    (clusterManagerMigrateKeysInReply answeredRound.first false true keys ends).2 = some .ok ∧
      ∀ key ∉ keys, (migrateCommand answeredRound.first false true keys ends).1.target.has key =
        ends.target.has key := by
  have names : (keys.filterMap ends.source.store.find).map Prod.fst = keys := by
    rw [presentKeys]
    exact List.filter_eq_self.mpr here
  have some_ : (keys.filterMap ends.source.store.find).isEmpty = false := by
    cases present : keys.filterMap ends.source.store.find with
    | nil =>
      rw [present] at names
      exact absurd names.symm filled
    | cons => rfl
  obtain ⟨error,socket,still⟩ := answeredCopyFold (p := ⟨ends,none,false⟩) (names.symm ▸ distinct)
    (fun e inside => free e.1 (names ▸ List.mem_map_of_mem inside)) ⟨rfl,rfl⟩
  rw [names] at still
  simp only [answeredRequest] at error socket still
  simp only [clusterManagerMigrateKeysInReply,migrateCommand,answeredRound,answeredRequest,firstAttempt,some_,error,socket,
    Bool.not_true,Bool.false_eq_true,if_false,if_true,true_and]
  exact still

theorem answeredCopies (n : Nat)
    (free : ∀ key ∈ (keysOf slot ends.source).drop offset, ends.target.has key = false) :
    ∀ request ∈ (clusterManagerMigrateKeysInSlotHelp o slot pipeline true (List.replicate n answeredRound) offset true
      ends).requests, request.reply = some .ok := by
  have unbroken : (!true || decide (answeredRound.listing ≠ .keys)) = false := by decide
  induction n generalizing offset ends with
  | zero => nofun
  | succ n ih =>
    rw [List.replicate_succ]
    cases listed : getkeysinslotCommand slot pipeline offset ends.source with
    | none => simp only [clusterManagerMigrateKeysInSlotHelp,listed,unbroken,Bool.false_eq_true,if_false,List.not_mem_nil,false_implies,
        implies_true]
    | some keys =>
      by_cases wide : intMax < offset + pipeline
      · simp only [clusterManagerMigrateKeysInSlotHelp,listed,unbroken,wide,Bool.false_eq_true,if_false,if_true,List.not_mem_nil,
          false_implies,implies_true]
      cases filled : keys.isEmpty with
      | true =>
        simp only [clusterManagerMigrateKeysInSlotHelp,listed,unbroken,wide,filled,Bool.false_eq_true,if_false,if_true,
          List.not_mem_nil,false_implies,implies_true]
      | false =>
        have width : intMax < 2 ^ 32 := by decide
        obtain ⟨short,within,distinct⟩ := listingShort listed
        have within := within (by omega)
        have here : ∀ key ∈ keys, ends.source.store.has key = true := fun key inside => by
          obtain ⟨_,value,member⟩ := memKeysOf.mp (List.mem_of_mem_drop (List.mem_of_mem_take (within key inside)))
          exact (Dict.hasIff _ _).mpr ⟨_,member,rfl⟩
        obtain ⟨ok,still⟩ := answeredCopyPage distinct (List.isEmpty_eq_false_iff.mp filled) here
          (fun key inside => free key (List.mem_of_mem_take (within key inside)))
        have kept := copyKeepsSource answeredRound.first false keys ends
        simp only [clusterManagerMigrateKeysInSlotHelp,unbroken,listed,if_neg wide,filled,Bool.false_eq_true,if_false,ok,pageOk ok,
          if_true,List.mem_cons,forall_eq_or_imp,true_and]
        refine ih fun key inside => ?_
        rw [kept,← List.drop_drop] at inside
        have once : ((keysOf slot ends.source).drop offset).Nodup :=
            (keysDistinct slot ends.source).sublist (List.drop_sublist _ _)
        have later : key ∉ keys := fun listed => List.disjoint_take_drop once le_rfl (within key listed) inside
        rw [still key later]
        exact free key (List.mem_of_mem_drop inside)

theorem copiesIff {slot : Slot} {db : Db Value} (o : Options Value) (positive : 1 ≤ pipeline) :
    CopiesOnce o slot pipeline db ↔ (pages slot pipeline db + 1) * pipeline ≤ intMax := by
  constructor
  · intro once
    let rounds := List.replicate ((keysOf slot db).length + 1) answeredRound
    have enough : (keysOf slot db).length < rounds.length := by simp [rounds]
    have listings : ∀ round ∈ rounds, round.listing = .keys := fun round inside => by
        rw [List.eq_of_mem_replicate inside]; rfl
    obtain ⟨ended,asked⟩ := once .empty rounds enough listings (answeredCopies _ fun _ _ => rfl)
    obtain ⟨k,total,below⟩ := copyBound ended
    rw [Nat.zero_add] at below
    refine le_trans (Nat.mul_le_mul_right _ (Nat.succ_le_succ ?_)) below
    rw [← clusterManagerCopySlot,asked] at total
    exact Nat.lt_succ_iff.mp ((Nat.div_lt_iff_lt_mul positive).mpr (by rw [Nat.succ_mul]; omega))
  · intro bounded target rounds enough listings ok
    have start : 0 + pages slot pipeline db * pipeline = pages slot pipeline db * pipeline := Nat.zero_add _
    have fewer : pages slot pipeline db ≤ (keysOf slot db).length := by
      by_contra more
      have beyond := Nat.mul_le_mul_right pipeline (Nat.succ_le_of_lt (Nat.lt_of_not_le more))
      rw [Nat.succ_mul] at beyond
      have least := Nat.le_mul_of_pos_right (keysOf slot db).length positive
      have cover := (pagesCover slot db positive).2
      omega
    exact copyAll positive bounded start (by omega) listings rfl ok

end copies

/-- The pages of a slot are its keys in order when the offset behind the last page is past them in
32 bits, and the manager asks for each key once when its int can hold the offset behind the empty page. -/
theorem pagedListing (o : Options Value) (slot : Slot) {p : Nat} (positive : 1 ≤ p) (db : Db Value) :
    ((∃ fuel, readPages slot p db fuel 0 = some (keysOf slot db)) ↔
      (keysOf slot db).length ≤ pages slot p db * p % 2 ^ 32 ∧ min p (keysOf slot db).length ≤ intMax) ∧
    (CopiesOnce o slot p db ↔ (pages slot p db + 1) * p ≤ intMax) :=
  ⟨readingIff positive,copiesIff o positive⟩

theorem pagedListingShown : (∃ fuel, readPages slotOfK 1 twoKeys fuel 0 = some [[123,107,125,49],[123,107,125,50]]) ∧
    CopiesOnce plainOptions slotOfK 1 twoKeys :=
  have exact_ := pagedListing plainOptions slotOfK (p := 1) le_rfl twoKeys
  ⟨exact_.1.mpr (by decide),exact_.2.mpr (by decide)⟩

/-- With pages of `2 ^ 30` keys the second offset is beyond the int of the manager. -/
theorem pagesOverflow : ¬ ∀ (slot : Slot) (p : Nat) (db : Db Bytes), 1 ≤ p →
    (∃ fuel, readPages slot p db fuel 0 = some (keysOf slot db)) ∧ CopiesOnce plainOptions slot p db := by
  intro all
  have once := (all slotOfK (2 ^ 30) twoKeys (by decide)).2
  have bounded := (copiesIff plainOptions (by decide)).mp once
  exact absurd bounded (by decide)

end HpuCache.PagedCopy
