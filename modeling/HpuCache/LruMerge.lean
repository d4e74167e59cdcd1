import HpuCache.FaultRun
import HpuCache.LruGossip

/-! What a node does with the slots that another one has counted. They are put into a cache of
their own; then one cursor walks along it and another along the local list, and the counts under
the two cursors are compared, whatever slots they are for. -/
namespace HpuCache.LruMerge
open FaultRun LruCache LruGossip RecencyList

inductive Fault where
  -- A null pointer or an entry that was freed.
  | nullEntry
  -- An address in use was chosen for a new entry, which no allocator does.
  | notFresh
  | outOfFuel
  deriving DecidableEq

abbrev Pairs := List (Int × Int)

def loadEntry (cache : LRUCache) (entry : Option Addr) : Except Fault CacheEntry :=
  match cache.load entry with
  | some e => .ok e
  | none => .error .nullEntry

/-- `malloc` chooses the address of the entry that may be needed. -/
def setPair (fuel : Nat) (malloc : LRUCache → Addr) (cache : LRUCache) (pair : Int × Int) : Except Fault LRUCache :=
  if (cache.heap (malloc cache)).isSome then .error .notFresh
  else match LRUCacheSet fuel cache pair.1 pair.2 (malloc cache) with
    | some cache => .ok cache
    | none => .error .nullEntry

def setLarger (fuel : Nat) (malloc : LRUCache → Addr) (localcache : LRUCache) (entry localentry : CacheEntry) :
    Except Fault LRUCache :=
  if entry.data > localentry.data then setPair fuel malloc localcache (entry.key,entry.data) else .ok localcache

/-- The loop over the entries that were received; the second cursor is moved in every turn. -/
def updateLocal (fuel : Nat) (malloc : LRUCache → Addr) (received : LRUCache) :
    Nat → Option Addr → Option Addr → LRUCache → Except Fault LRUCache
  | _,none,_,localcache => .ok localcache
  | 0,some _,_,_ => .error .outOfFuel
  | turns + 1,some a,localentry,localcache => do
    let entry ← loadEntry received (some a)
    let under ← loadEntry localcache localentry
    let localcache ← setLarger fuel malloc localcache entry under
    let under ← loadEntry localcache localentry
    updateLocal fuel malloc received turns entry.lruListNext under.lruListNext localcache

/-- The branch of `clusterProcessPacket` behind the lookup of the sender. -/
def lruPacket (fuel : Nat) (malloc : LRUCache → Addr) (pairs : Pairs) (localcache : LRUCache) :
    Except Fault LRUCache := do
  let cache ← pairs.foldlM (setPair fuel malloc) (LRUCacheCreate MAX_LRU_TRACK_NUM)
  if cache.lruListSize = 0 then .ok localcache
  else if localcache.lruListSize = 0 then .ok localcache
  else updateLocal fuel malloc cache fuel cache.lruListHead localcache.lruListHead localcache

/-- What the cache of the message holds: of every slot the last count. -/
def incoming (pairs : Pairs) : Pairs := recencySets MAX_LRU_TRACK_NUM pairs []

def countOf (pairs : Pairs) (key : Int) : Int := ((recencyFind key pairs).map Prod.snd).getD 0

/-- The slots that were counted more often at the sender. -/
def ahead (received loc : Pairs) : Pairs := received.filter fun p => p.2 > countOf loc p.1

def othersOf (received loc : Pairs) : Pairs := loc.filter fun p => p.1 ∉ (ahead received loc).map Prod.fst

structure Merged (received loc after : Pairs) : Prop where
  taken : ∀ p ∈ ahead received loc, p ∈ after
  -- Only a full list has pushed out the last of them.
  kept : ∃ gone, othersOf received loc = after.filter (fun p => p.1 ∈ (othersOf received loc).map Prod.fst) ++ gone ∧
    (gone ≠ [] → after.length = MAX_LRU_TRACK_NUM)

def Merges (fuel : Nat) (malloc : LRUCache → Addr) (pairs : Pairs) (localcache : LRUCache) (loc : Pairs) : Prop :=
  ∃ after cells merged, lruPacket fuel malloc pairs localcache = .ok after ∧
    Represents MAX_LRU_TRACK_NUM after cells merged ∧ Merged (incoming pairs) loc merged

def successor (key : Int) (pairs : Pairs) : Option Int :=
  ((pairs.dropWhile fun p => p.1 ≠ key).tail.head?).map Prod.fst

/-- What one received pair does to the local list, with the entry of `key` under the cursor. -/
def turn (key : Int) (p : Int × Int) (loc : Pairs) : Pairs :=
  if p.2 > countOf loc key then recencySet MAX_LRU_TRACK_NUM p.1 p.2 loc else loc

/-- In every turn the cursor is on an entry that the turn leaves in the list, and a count that is above
that of its own slot at the start is above the one under the cursor. -/
def Aligned (start : Pairs) : Pairs → Pairs → Option Int → Prop
  | [],_,_ => True
  | _ :: _,_,none => False
  | p :: rest,loc,some key =>
    key ∈ (turn key p loc).map Prod.fst ∧ (p.2 > countOf start p.1 → p.2 > countOf loc key) ∧
      Aligned start rest (turn key p loc) (successor key (turn key p loc))

instance alignedDecidable (start : Pairs) :
    (received loc : Pairs) → (cursor : Option Int) → Decidable (Aligned start received loc cursor)
  | [],_,_ => isTrue trivial
  | _ :: _,_,none => isFalse id
  | p :: rest,loc,some key =>
    have := alignedDecidable start rest (turn key p loc) (successor key (turn key p loc))
    inferInstanceAs (Decidable (_ ∧ _ ∧ _))

/-- The pairs that are above the count under the cursor in their turn, but not above their own slot's. -/
def strays (start : Pairs) : Pairs → Pairs → Option Int → Pairs
  | [],_,_ => []
  | _ :: _,_,none => []
  | p :: rest,loc,some key =>
    let later := strays start rest (turn key p loc) (successor key (turn key p loc))
    if p.2 > countOf loc key ∧ p.2 ≤ countOf start p.1 then p :: later else later

/-- When the walk of the two cursors gives what it should: no entry of the others is put before one
that was in front of it. -/
def Fits (received : Pairs) : Pairs → Prop
  | [] => ahead received [] = []
  | first :: rest => Aligned (first :: rest) received (first :: rest) (some first.1) ∧
      ((strays (first :: rest) received (first :: rest) (some first.1)).filter fun p =>
        p.1 ∈ (first :: rest).map Prod.fst).reverse <+: othersOf received (first :: rest)

/-- The pairs that the loop puts, unless the cursor runs off the list or its entry is pushed out. -/
def passing : Pairs → Pairs → Option Int → Option Pairs
  | [],_,_ => some []
  | _ :: _,_,none => none
  | p :: rest,loc,some key =>
    if key ∈ (turn key p loc).map Prod.fst then
      (passing rest (turn key p loc) (successor key (turn key p loc))).map fun more =>
        if p.2 > countOf loc key then p :: more else more
    else none

section abstract
variable {start received loc stored : Pairs} {cursor : Option Int}

theorem passingSublist (passed : passing received loc cursor = some stored) : stored.Sublist received := by
  induction received generalizing loc cursor stored with
  | nil =>
    obtain rfl : [] = stored := by simpa [passing] using passed
    exact .slnil
  | cons p rest ih =>
    cases cursor with
    | none => simp [passing] at passed
    | some key =>
      rw [passing] at passed
      split at passed
      · obtain ⟨more,later,rfl⟩ := Option.map_eq_some_iff.mp passed
        split
        · exact (ih later).cons_cons p
        · exact (ih later).cons p
      · exact nomatch passed

theorem alignedIff (once : received.Nodup) : Aligned start received loc cursor ↔
    ∃ stored, passing received loc cursor = some stored ∧ ∀ p ∈ received, p.2 > countOf start p.1 → p ∈ stored := by
  induction received generalizing loc cursor with
  | nil => simp [Aligned,passing]
  | cons p rest ih =>
    cases cursor with
    | none => simp [Aligned,passing]
    | some key =>
      obtain ⟨fresh,once⟩ := List.nodup_cons.mp once
      rw [Aligned,ih once,passing]
      constructor
      · rintro ⟨stays,above,more,later,all⟩
        refine ⟨if p.2 > countOf loc key then p :: more else more,by rw [if_pos stays,later,Option.map_some],?_⟩
        intro q member ahead
        rcases List.mem_cons.mp member with rfl | member
        · rw [if_pos (above ahead)]
          exact List.mem_cons_self
        · split
          · exact List.mem_cons_of_mem _ (all q member ahead)
          · exact all q member ahead
      · rintro ⟨stored,passed,all⟩
        by_cases stays : key ∈ (turn key p loc).map Prod.fst
        · rw [if_pos stays] at passed
          obtain ⟨more,later,rfl⟩ := Option.map_eq_some_iff.mp passed
          have absent : p ∉ more := fun inside => fresh ((passingSublist later).subset inside)
          refine ⟨stays,fun ahead => ?_,more,later,fun q member ahead => ?_⟩
          · by_contra below
            have put := all p List.mem_cons_self ahead
            rw [if_neg below] at put
            exact absent put
          · have put := all q (List.mem_cons_of_mem _ member) ahead
            split at put
            · exact (List.mem_cons.mp put).resolve_left fun same => fresh (same ▸ member)
            · exact put
        · rw [if_neg stays] at passed
          exact nomatch passed

theorem straysPassing (passed : passing received loc cursor = some stored) :
    strays start received loc cursor = stored.filter fun p => p.2 ≤ countOf start p.1 := by
  induction received generalizing loc cursor stored with
  | nil =>
    obtain rfl : [] = stored := by simpa [passing] using passed
    rfl
  | cons p rest ih =>
    cases cursor with
    | none => simp [passing] at passed
    | some key =>
      rw [passing] at passed
      split at passed
      · obtain ⟨more,later,rfl⟩ := Option.map_eq_some_iff.mp passed
        rw [strays,ih later]
        by_cases above : p.2 > countOf loc key
        · simp [above,List.filter_cons]
        · simp [above]
      · exact nomatch passed

theorem countMember {p : Int × Int} (distinct : (loc.map Prod.fst).Nodup) (member : p ∈ loc) :
    countOf loc p.1 = p.2 := by
  obtain ⟨front,back,rfl⟩ := List.append_of_mem member
  have found : recencyFind p.1 (front ++ p :: back) = some p := findSplit distinct
  rw [countOf,found]
  rfl

theorem othersKeys (received loc : Pairs) :
    loc.filter (fun p => p.1 ∈ (othersOf received loc).map Prod.fst) = othersOf received loc := by
  refine List.filter_congr fun p member => ?_
  rw [Bool.eq_iff_iff,decide_eq_true_iff,decide_eq_true_iff]
  constructor
  · intro inside
    obtain ⟨q,other,same⟩ := List.mem_map.mp inside
    exact same ▸ of_decide_eq_true (List.mem_filter.mp other).2
  · exact fun outside => List.mem_map_of_mem (List.mem_filter.mpr ⟨member,decide_eq_true outside⟩)

theorem othersPut (once : (received.map Prod.fst).Nodup) (sub : stored.Sublist received) :
    (stored.filter fun p => p.1 ∈ (othersOf received loc).map Prod.fst) =
      (stored.filter fun p => p.2 ≤ countOf loc p.1).filter fun p => p.1 ∈ loc.map Prod.fst := by
  rw [List.filter_filter]
  refine List.filter_congr fun p member => ?_
  rw [Bool.eq_iff_iff,Bool.and_eq_true,decide_eq_true_iff,decide_eq_true_iff,decide_eq_true_iff]
  constructor
  · intro inside
    obtain ⟨q,other,same⟩ := List.mem_map.mp inside
    obtain ⟨here,outside⟩ := List.mem_filter.mp other
    refine ⟨same ▸ List.mem_map_of_mem here,Int.not_lt.mp fun above => of_decide_eq_true outside ?_⟩
    exact same ▸ List.mem_map_of_mem (List.mem_filter.mpr ⟨sub.subset member,decide_eq_true above⟩)
  · rintro ⟨here,below⟩
    obtain ⟨q,there,same⟩ := List.mem_map.mp here
    refine List.mem_map.mpr ⟨q,List.mem_filter.mpr ⟨there,decide_eq_true fun inside => ?_⟩,same⟩
    obtain ⟨r,winner,key⟩ := List.mem_map.mp inside
    obtain ⟨put,above⟩ := List.mem_filter.mp winner
    obtain rfl := List.inj_on_of_nodup_map once put (sub.subset member) (key.trans same)
    exact absurd (of_decide_eq_true above) (Int.not_lt.mpr below)

theorem fitsPassing {first : Int × Int} {rest : Pairs} (once : (received.map Prod.fst).Nodup) :
    Fits received (first :: rest) ↔ ∃ stored, passing received (first :: rest) (some first.1) = some stored ∧
      (∀ p ∈ ahead received (first :: rest), p ∈ stored) ∧
      (stored.filter fun p => p.1 ∈ (othersOf received (first :: rest)).map Prod.fst).reverse <+:
        othersOf received (first :: rest) := by
  have members (stored : Pairs) : (∀ p ∈ ahead received (first :: rest), p ∈ stored) ↔
      ∀ p ∈ received, p.2 > countOf (first :: rest) p.1 → p ∈ stored := by
    simp [ahead]
  rw [Fits,alignedIff once.of_map]
  constructor
  · rintro ⟨⟨stored,passed,all⟩,order⟩
    rw [straysPassing passed,← othersPut once (passingSublist passed)] at order
    exact ⟨stored,passed,(members stored).mpr all,order⟩
  · rintro ⟨stored,passed,all,order⟩
    rw [othersPut once (passingSublist passed)] at order
    exact ⟨⟨stored,passed,(members stored).mp all⟩,straysPassing passed ▸ order⟩

theorem mergedIff (once : (received.map Prod.fst).Nodup) (few : received.length ≤ MAX_LRU_TRACK_NUM)
    (distinct : (loc.map Prod.fst).Nodup) (short : loc.length ≤ MAX_LRU_TRACK_NUM) (sub : stored.Sublist received) :
    Merged received loc (recencySets MAX_LRU_TRACK_NUM stored loc) ↔ (∀ p ∈ ahead received loc, p ∈ stored) ∧
      (stored.filter fun p => p.1 ∈ (othersOf received loc).map Prod.fst).reverse <+: othersOf received loc := by
  have fits : stored.length ≤ MAX_LRU_TRACK_NUM := sub.length_le.trans few
  have single := once.sublist (sub.map Prod.fst)
  have members {p : Int × Int} := setsMember (p := p) (by decide) single distinct short fits
  have keeps := setsKept (by decide) single distinct short fits ((othersOf received loc).map Prod.fst)
  rw [othersKeys] at keeps
  rw [← keeps]
  refine ⟨fun merged => ⟨fun p winner => ?_,merged.kept⟩,fun ⟨taken,kept⟩ => ⟨fun p winner => ?_,kept⟩⟩
  · refine (members.2 (merged.taken p winner)).resolve_right fun here => ?_
    have above := of_decide_eq_true (List.mem_filter.mp winner).2
    rw [countMember distinct here] at above
    exact Int.lt_irrefl _ above
  · exact members.1 (taken p winner)

end abstract

section simulation
variable {limit : Int} {cache localcache received : LRUCache} {cells front rest : List Addr} {pairs ps loc : Pairs}
  {fuel turns : Nat} {malloc : LRUCache → Addr} {cursor : Option Int} {localentry : Option Addr} {key : Int} {a : Addr}

theorem setEnds (rep : Represents limit cache cells pairs) (room : 1 ≤ limit) (enough : 1 ≤ fuel) (p : Int × Int) :
    Ends (fun e => e = .notFresh) (fun after => ∃ more, Represents limit after more
      (recencySet limit.toNat p.1 p.2 pairs) ∧
      Tracks cache after ((recencySet limit.toNat p.1 p.2 pairs).map Prod.fst)) (setPair fuel malloc cache p) := by
  rw [setPair]
  split
  · rfl
  · next free =>
    rw [Option.not_isSome_iff_eq_none] at free
    obtain ⟨after,more,done,final,tracks⟩ :=
      @setRepresents _ _ _ _ _ p.1 p.2 (malloc cache) rep room enough free
    simp only [done]
    exact ⟨more,final,tracks⟩

theorem fillEnds (rep : Represents limit cache cells pairs) (room : 1 ≤ limit) (enough : 1 ≤ fuel) (puts : Pairs) :
    Ends (fun e => e = .notFresh) (fun after => ∃ more, Represents limit after more
      (recencySets limit.toNat puts pairs))
      (puts.foldlM (setPair fuel malloc) cache) := by
  induction puts generalizing cache cells pairs with
  | nil => exact ⟨cells,rep⟩
  | cons p puts ih =>
    rw [List.foldlM_cons]
    exact (setEnds rep room enough p).bind fun after ⟨more,final,_⟩ => ih final

def Under (cache : LRUCache) (cursor : Option Int) (entry : Option Addr) : Prop :=
  match cursor with
  | none => entry = none
  | some key => ∃ a, entry = some a ∧ cache.hashMap key = some a

theorem successorSplit {pre post : Pairs} {d : Int} (absent : key ∉ pre.map Prod.fst) :
    successor key (pre ++ (key,d) :: post) = post.head?.map Prod.fst := by
  induction pre with
  | nil => simp [successor]
  | cons q pre ih =>
    rw [List.map_cons,List.mem_cons,not_or] at absent
    have skipped : successor key (q :: (pre ++ (key,d) :: post)) = successor key (pre ++ (key,d) :: post) := by
      simp [successor,Ne.symm absent.1]
    exact skipped.trans (ih absent.2)

theorem underEntry (rep : Represents limit cache cells pairs) (hit : cache.hashMap key = some a) :
    ∃ e, loadEntry cache (some a) = .ok e ∧ e.data = countOf pairs key ∧
      Under cache (successor key pairs) e.lruListNext := by
  obtain ⟨before,back,d,pre,post,rfl,rfl,_,stored,right⟩ := rep.split hit
  obtain ⟨e,found,_,next⟩ := rep.listed.cell
  obtain ⟨_,same,_,data,_⟩ := storedEntry stored
  obtain rfl := Option.some.inj (found.symm.trans same)
  refine ⟨e,by simp [loadEntry,LRUCache.load,found],?_,?_⟩
  · rw [countOf,findSplit rep.distinct,data]
    rfl
  · rw [successorSplit (splitAbsent rep.distinct).1,next]
    cases post with
    | nil =>
      obtain rfl := List.map_eq_nil_iff.mp right
      rfl
    | cons q post =>
      obtain ⟨b,back,rfl,own,_⟩ := List.map_eq_cons_iff.mp right
      exact ⟨b,rfl,(rep.table q.1 b).mpr ⟨by simp,q.2,own⟩⟩

theorem turnEnds (rep : Represents MAX_LRU_TRACK_NUM localcache cells loc) (enough : 1 ≤ fuel)
    (hit : localcache.hashMap key = some a) {p : Int × Int} {e u : CacheEntry} (slot : e.key = p.1)
    (count : e.data = p.2) (data : u.data = countOf loc key) :
    Ends (fun e => e = .notFresh) (fun after => (∃ more, Represents MAX_LRU_TRACK_NUM after more (turn key p loc)) ∧
        if key ∈ (turn key p loc).map Prod.fst then after.hashMap key = some a else after.heap a = none)
      (setLarger fuel malloc localcache e u) := by
  rw [turn,setLarger,slot,count,data]
  split
  · exact (setEnds rep (by decide) enough p).imp fun after ⟨more,final,tracks⟩ => ⟨⟨more,final⟩,tracks key a hit⟩
  · obtain ⟨d,member⟩ := rep.linked.mp hit
    have here : key ∈ loc.map Prod.fst := List.mem_map_of_mem (f := Prod.fst) (List.of_mem_zip member).2
    rw [endsOk,if_pos here]
    exact ⟨⟨cells,rep⟩,hit⟩

/-- The loop puts the pairs that pass, or it follows a pointer that leads nowhere. -/
theorem updateEnds (listed : Listed received (front ++ rest)) (stored : rest.map received.stored = ps.map entryOf)
    (rep : Represents MAX_LRU_TRACK_NUM localcache cells loc) (under : Under localcache cursor localentry)
    (enough : 1 ≤ fuel) (long : ps.length ≤ turns) :
    Ends (fun e => e = .notFresh ∨ e = .nullEntry ∧ passing ps loc cursor = none)
      (fun after => ∃ stored more, passing ps loc cursor = some stored ∧
        Represents MAX_LRU_TRACK_NUM after more (recencySets MAX_LRU_TRACK_NUM stored loc))
      (updateLocal fuel malloc received turns rest.head? localentry localcache) := by
  induction ps generalizing front rest localcache cells loc cursor localentry turns with
  | nil =>
    obtain rfl := List.map_eq_nil_iff.mp stored
    rw [List.head?_nil,updateLocal]
    exact ⟨[],cells,by rw [passing],rep⟩
  | cons p ps ih =>
    obtain ⟨b,rest,rfl,own,others⟩ := List.map_eq_cons_iff.mp stored
    obtain ⟨turns,rfl⟩ := Nat.exists_eq_add_one.mpr (Nat.lt_of_lt_of_le (Nat.succ_pos _) long)
    obtain ⟨e,found,_,next⟩ := listed.cell
    obtain ⟨_,same,slot,count,_⟩ := storedEntry (k := p.1) (d := p.2) own
    obtain rfl := Option.some.inj (found.symm.trans same)
    have entry : loadEntry received (some b) = .ok e := by simp [loadEntry,LRUCache.load,found]
    simp only [List.head?_cons,updateLocal,entry,valueBind,next]
    cases cursor with
    | none =>
      obtain rfl := under
      exact .inr ⟨rfl,rfl⟩
    | some key =>
      obtain ⟨a,rfl,hit⟩ := under
      obtain ⟨u,loaded,data,_⟩ := underEntry rep hit
      simp only [loaded,valueBind]
      refine ((turnEnds rep enough hit slot count data).weaken (fun _ => id) fun _ => .inl).bind fun after turned => ?_
      obtain ⟨⟨more,final⟩,where_⟩ := turned
      rw [passing]
      split at where_
      · next stays =>
        obtain ⟨v,again,_,behind⟩ := underEntry final where_
        rw [if_pos stays,again,valueBind]
        have listed : Listed received ((front ++ [b]) ++ rest) := by simpa using listed
        refine (ih listed others final behind (Nat.le_of_succ_le_succ long)).weaken ?_ ?_
        · rintro last ⟨stored,cells,passed,end_⟩
          refine ⟨_,cells,by rw [passed,Option.map_some],?_⟩
          rw [turn] at end_
          split at end_
          · next more => exact (if_pos more).symm ▸ end_
          · next less => exact (if_neg less).symm ▸ end_
        · rintro fault (rfl | ⟨rfl,stuck⟩)
          · exact .inl rfl
          · exact .inr ⟨rfl,by rw [stuck,Option.map_none]⟩
      · next gone =>
        have lost : loadEntry after (some a) = .error .nullEntry := by simp [loadEntry,LRUCache.load,where_]
        rw [lost]
        exact .inr ⟨rfl,if_neg gone⟩

theorem representsFew (rep : Represents limit cache cells pairs) : (pairs.length : Int) ≤ limit := by
  have size := rep.size
  have bounded := rep.bounded
  rw [rep.length] at size
  rwa [size,rep.capacity] at bounded

theorem representsEmpty (rep : Represents limit cache cells pairs) : cache.lruListSize = 0 ↔ pairs = [] := by
  rw [rep.size,rep.length,Int.natCast_eq_zero,List.length_eq_zero_iff]

theorem mergesRun {after : LRUCache} {more : List Addr} {stored pairs : Pairs}
    (rep : Represents MAX_LRU_TRACK_NUM localcache cells loc)
    (message : Represents MAX_LRU_TRACK_NUM received front (incoming pairs))
    (run : lruPacket fuel malloc pairs localcache = .ok after) (sub : stored.Sublist (incoming pairs))
    (final : Represents MAX_LRU_TRACK_NUM after more (recencySets MAX_LRU_TRACK_NUM stored loc)) :
    Merges fuel malloc pairs localcache loc ↔ (∀ p ∈ ahead (incoming pairs) loc, p ∈ stored) ∧
      (stored.filter fun p => p.1 ∈ (othersOf (incoming pairs) loc).map Prod.fst).reverse <+:
        othersOf (incoming pairs) loc := by
  rw [← mergedIff message.distinct (Int.ofNat_le.mp (representsFew message)) rep.distinct
    (Int.ofNat_le.mp (representsFew rep)) sub]
  constructor
  · rintro ⟨last,others,merged,ran,shown,good⟩
    obtain rfl := Except.ok.inj (run.symm.trans ran)
    exact final.unique shown ▸ good
  · exact fun good => ⟨after,more,_,run,final,good⟩

/-- A message is merged as it should be, or it is not, by how its list and the local one lie side by
side. -/
theorem lruMerged {pairs : Pairs} (rep : Represents MAX_LRU_TRACK_NUM localcache cells loc)
    (enough : MAX_LRU_TRACK_NUM ≤ fuel) (fresh : lruPacket fuel malloc pairs localcache ≠ .error .notFresh) :
    Merges fuel malloc pairs localcache loc ↔ Fits (incoming pairs) loc := by
  have room : 1 ≤ fuel := Nat.le_trans (by decide) enough
  have empty : Represents MAX_LRU_TRACK_NUM (LRUCacheCreate MAX_LRU_TRACK_NUM) [] [] := createRepresents (by decide)
  have filled : Ends _ _ (pairs.foldlM (setPair fuel malloc) _) := fillEnds empty (by decide) room pairs
  cases fill : pairs.foldlM (setPair fuel malloc) (LRUCacheCreate MAX_LRU_TRACK_NUM) with
  | error e =>
    obtain rfl := filled.fault fill
    exact absurd (by rw [lruPacket,fill]; rfl) fresh
  | ok cache =>
    obtain ⟨front,message⟩ := filled.value fill
    have few : (incoming pairs).length ≤ MAX_LRU_TRACK_NUM := Int.ofNat_le.mp (representsFew message)
    have once : ((incoming pairs).map Prod.fst).Nodup := message.distinct
    have run : lruPacket fuel malloc pairs localcache = if cache.lruListSize = 0 then .ok localcache
        else if localcache.lruListSize = 0 then .ok localcache
        else updateLocal fuel malloc cache fuel cache.lruListHead localcache.lruListHead localcache := by
      rw [lruPacket,fill]
      rfl
    cases loc with
    | nil =>
      rw [if_pos ((representsEmpty rep).mpr rfl),ite_self] at run
      rw [mergesRun rep message run (List.nil_sublist _) rep,Fits]
      simp [List.eq_nil_iff_forall_not_mem]
    | cons first rest =>
      have held : localcache.lruListSize ≠ 0 := fun none => nomatch (representsEmpty rep).mp none
      rw [if_neg held] at run
      by_cases none : cache.lruListSize = 0
      · have bare : incoming pairs = [] := (representsEmpty message).mp none
        rw [if_pos none] at run
        rw [mergesRun rep message run (List.nil_sublist _) rep,fitsPassing once,bare]
        simp [passing]
      · rw [if_neg none,message.listed.head,rep.listed.head] at run
        obtain ⟨b,more,rfl,own,_⟩ := List.map_eq_cons_iff.mp rep.stored
        have under : Under localcache (some first.1) (some b) :=
          ⟨b,rfl,(rep.table first.1 b).mpr ⟨by simp,first.2,own⟩⟩
        have listed : Listed cache ([] ++ front) := message.listed
        have ends : Ends _ _ (updateLocal fuel malloc cache fuel front.head? (some b) localcache) :=
          updateEnds listed message.stored rep under room (few.trans enough)
        rw [List.head?_cons] at run
        rw [← run] at ends
        cases ran : lruPacket fuel malloc pairs localcache with
        | error e =>
          rcases ends.fault ran with rfl | ⟨_,stuck⟩
          · exact absurd ran fresh
          · constructor
            · rintro ⟨_,_,_,done,_⟩
              exact nomatch ran.symm.trans done
            · intro fits
              obtain ⟨_,passed,_⟩ := (fitsPassing once).mp fits
              exact nomatch stuck.symm.trans passed
        | ok after =>
          obtain ⟨stored,others,passed,final⟩ := ends.value ran
          rw [mergesRun rep message ran (passingSublist passed) final,fitsPassing once]
          refine ⟨fun good => ⟨stored,passed,good⟩,fun ⟨same,again,good⟩ => ?_⟩
          obtain rfl := Option.some.inj (passed.symm.trans again)
          exact good

end simulation

def firstFree (cache : LRUCache) : Addr := ((List.range 32).find? fun a => (cache.heap a).isNone).getD 32

def tracked (puts : Pairs) : Except Fault LRUCache := puts.foldlM (setPair 1 firstFree)
    (LRUCacheCreate MAX_LRU_TRACK_NUM)

/-- A message carries ten pairs, zeros where the sender has none. -/
def oneSlot (slot count : Int) : Pairs := (slot,count) :: List.replicate 9 (0,0)

theorem trackedRepresents (puts : Pairs) : Ends (fun e => e = .notFresh)
    (fun cache => ∃ cells, Represents MAX_LRU_TRACK_NUM cache cells (incoming puts)) (tracked puts) :=
  fillEnds (createRepresents (by decide)) (by decide) Nat.one_pos puts

theorem lruMergedShown : ∃ localcache cells, Represents MAX_LRU_TRACK_NUM localcache cells [(7,2),(8,1)] ∧
    Merges 10 firstFree (oneSlot 5 3) localcache [(7,2),(8,1)] := by
  have runs : (tracked [(8,1),(7,2)] >>= lruPacket 10 firstFree (oneSlot 5 3)).toOption.isSome = true := by
    decide +kernel
  have ends := trackedRepresents [(8,1),(7,2)]
  cases start : tracked [(8,1),(7,2)] with
  | error e => simp [start,bind,Except.bind,Except.toOption] at runs
  | ok localcache =>
    obtain ⟨cells,rep⟩ := ends.value start
    have rep : Represents MAX_LRU_TRACK_NUM localcache cells [(7,2),(8,1)] := rep
    rw [start,valueBind] at runs
    refine ⟨localcache,cells,rep,(lruMerged rep (by decide) fun failed => ?_).mpr ⟨?_,?_⟩⟩
    · simp [failed,Except.toOption] at runs
    · decide +kernel
    · decide +kernel

/-- The second pair of a message follows the end of a local list of one entry. -/
theorem cursorRunsOff : ∃ localcache cells, Represents MAX_LRU_TRACK_NUM localcache cells [(7,5)] ∧
    lruPacket 10 firstFree (oneSlot 5 1) localcache = .error .nullEntry ∧
    ¬ Merges 10 firstFree (oneSlot 5 1) localcache [(7,5)] := by
  have ends := trackedRepresents [(7,5)]
  have fails : (match tracked [(7,5)] >>= lruPacket 10 firstFree (oneSlot 5 1) with
      | .ok _ => none
      | .error e => some e) = some Fault.nullEntry := by decide +kernel
  cases start : tracked [(7,5)] with
  | error e =>
    obtain rfl := ends.fault start
    simp [start,bind,Except.bind] at fails
  | ok localcache =>
    obtain ⟨cells,rep⟩ := ends.value start
    rw [start,valueBind] at fails
    cases ran : lruPacket 10 firstFree (oneSlot 5 1) localcache with
    | ok after => simp [ran] at fails
    | error e =>
      rw [ran] at fails
      obtain rfl := Option.some.inj fails
      exact ⟨localcache,cells,rep,ran,fun ⟨_,_,_,done,_⟩ => nomatch ran.symm.trans done⟩

end HpuCache.LruMerge
