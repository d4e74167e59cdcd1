import HpuCache.KeySlot
import HpuCache.LruGossip

/-! The indices with which the cache reads and writes `hashMap`. The table is allocated with
one chain for each entry that the cache may hold, and is indexed by the slot number itself. -/
namespace HpuCache.HashBounds
open EventRun KeySlot LruCache LruGossip RecencyList

def hashChains (capacity : Int) : Nat := capacity.toNat

def getValueIndices (key : Int) : List Int := [key]

/-- The chain of the new entry is read and then written. -/
def insertentryIndices (cache : LRUCache) (entry : Addr) : Option (List Int) :=
  (cache.heap entry).map fun e => [e.key,e.key]

/-- The chain is written when the entry is its first. -/
def removeEntryIndices (fuel : Nat) (cache : LRUCache) (entry : Addr) : Option (List Int) := do
  let e ← cache.heap entry
  match ← chainWalk cache.heap e.key fuel (cache.hashMap e.key) with
  | none => some [e.key]
  | some a =>
    let n ← cache.heap a
    some (if n.hashListPrev.isSome then [e.key] else [e.key,e.key])

def setIndices (fuel : Nat) (cache : LRUCache) (key data : Int) (fresh : Addr) : Option (List Int) := do
  match ← getValueFromHashMap fuel cache key with
  | some _ => some (getValueIndices key)
  | none =>
    let cache := cache.write fresh (newCacheEntry key data)
    let (cache,removedEntry) ← insertToListHead cache fresh
    match removedEntry with
    | none => (insertentryIndices cache fresh).map fun inserted => getValueIndices key ++ inserted
    | some removed =>
      let evicted ← removeEntryIndices fuel cache removed
      let cache ← removeEntryFromHashMap fuel cache removed
      let inserted ← insertentryIndices (freeCacheEntry cache removed) fresh
      some (getValueIndices key ++ evicted ++ inserted)

def cacheIndices (fuel : Nat) (cache : LRUCache) : CacheOp → Option (List Int)
  | .set key data fresh => setIndices fuel cache key data fresh
  | .get key => some (getValueIndices key)

def tracedStep (fuel : Nat) (s : LRUCache × List Int) (op : CacheOp) : Option (LRUCache × List Int) := do
  let indices ← cacheIndices fuel s.1 op
  let after ← cacheStep fuel s.1 op
  some (after,s.2 ++ indices)

def keyOf : CacheOp → Int
  | .set key _ _ => key
  | .get key => key

/-- Who calls the cache: a command that was counted, one entry of a message that arrived,
or a reader of a slot's count. -/
inductive Caller where
  | processCommand (hashslot : Slot) (fresh : Addr)
  | clusterProcessPacket (slotname opnum : BitVec 32) (fresh : Addr)
  | reader (hashslot : Slot)

def Caller.op (order : ByteOrder) : Caller → CacheOp
  | .processCommand hashslot fresh => .set hashslot.val 1 fresh
  | .clusterProcessPacket slotname opnum fresh => .set (ntohs order (slotname.setWidth 16)).toNat opnum.toInt fresh
  | .reader hashslot => .get hashslot.val

def callerStep (order : ByteOrder) (fuel : Nat) (s : LRUCache × List Int) (caller : Caller) :
    Option (LRUCache × List Int) :=
  tracedStep fuel s (caller.op order)

section
variable {limit : Int} {cache : LRUCache} {cells : List Addr} {pairs : List (Int × Int)} {fuel : Nat} {key : Int}
  {fresh : Addr}

theorem insertIndicesOf {d : Int} (stored : cache.stored fresh = entryOf (key,d)) :
    insertentryIndices cache fresh = some [key,key] := by
  obtain ⟨e,found,rfl,_⟩ := storedEntry stored
  simp [insertentryIndices,found]

theorem removeIndicesOf {t : Addr} {k d : Int} (hit : cache.hashMap k = some t)
    (stored : cache.stored t = entryOf (k,d))
    (enough : 1 ≤ fuel) : removeEntryIndices fuel cache t = some [k,k] := by
  obtain ⟨fuel,rfl⟩ : ∃ n, fuel = n + 1 := ⟨fuel - 1,by omega⟩
  obtain ⟨e,found,rfl,_,before,_⟩ := storedEntry stored
  simp [removeEntryIndices,found,hit,chainWalk,before]

theorem missRoomIndices (data : Int) (rep : Represents limit cache cells pairs) (enough : 1 ≤ fuel)
    (missed : cache.hashMap key = none) (unused : cache.heap fresh = none)
    (room : cache.lruListSize + 1 ≤ cache.cacheCapacity) :
    setIndices fuel cache key data fresh = some [key,key,key] := by
  obtain ⟨outside,listed,_,own⟩ := rep.allocate unused key data
  obtain ⟨linked,pushed,_,kept,_⟩ := pushRoom listed room outside (Function.update_self fresh _ _) fun _ => ⟨rfl,rfl⟩
  have inserted : insertentryIndices linked fresh = some [key,key] := insertIndicesOf (kept.stored ▸ own)
  simp only [setIndices,rep.lookup enough,missed,bind,Option.bind_some,pushed,inserted,Option.map_some]
  rfl

theorem missFullIndices (data : Int) (rep : Represents limit cache cells pairs) (enough : 1 ≤ fuel)
    (missed : cache.hashMap key = none) (unused : cache.heap fresh = none) (filled : 1 ≤ cache.lruListSize)
    (full : cache.lruListSize + 1 > cache.cacheCapacity) :
    ∃ k ∈ pairs.map Prod.fst, setIndices fuel cache key data fresh = some [key,k,k,key,key] := by
  obtain ⟨outside,listed,same,own⟩ := rep.allocate unused key data
  rcases List.eq_nil_or_concat' cells with rfl | ⟨front,t,rfl⟩
  · have size := rep.size
    simp only [List.length_nil] at size
    omega
  obtain ⟨k,d,last⟩ := rep.cell (a := t) (by simp)
  have member : k ∈ pairs.map Prod.fst := by
    have shown : entryOf (k,d) ∈ pairs.map entryOf := rep.stored ▸ last ▸ List.mem_map_of_mem (by simp)
    obtain ⟨pair,inside,alike⟩ := List.mem_map.mp shown
    simp only [entryOf,Option.some_inj,Prod.mk.injEq] at alike
    exact List.mem_map.mpr ⟨pair,inside,alike.1⟩
  obtain ⟨linked,pushed,_,kept,_⟩ := pushFull listed full (by
    change cache.lruListSize + 1 ≠ 0
    omega) outside (Function.update_self fresh _ _) ⟨rfl,rfl⟩
  have stored : linked.stored t = entryOf (k,d) := by
    rw [kept.stored,same t (by simp),last]
  have hit : linked.hashMap k = some t := by
    rw [kept.hashMap]
    exact (rep.table k t).mpr ⟨by simp,d,last⟩
  have apart : fresh ≠ t := fun here => outside (by simp [here])
  have still : (freeCacheEntry { linked with hashMap := Function.update linked.hashMap k none } t).stored fresh =
      entryOf (key,data) := by
    rw [← own,← kept.stored]
    exact congrArg _ (Function.update_of_ne apart _ _)
  refine ⟨k,member,?_⟩
  simp only [setIndices,rep.lookup enough,missed,bind,Option.bind_some,pushed,removeIndicesOf hit stored enough,
    removeHash hit stored enough,insertIndicesOf still]
  rfl

theorem indicesOf (rep : Represents limit cache cells pairs) (room : 1 ≤ limit) (enough : 1 ≤ fuel) {op : CacheOp}
    (possible : Possible cache op) : ∃ indices, cacheIndices fuel cache op = some indices ∧ keyOf op ∈ indices ∧
      ∀ i ∈ indices, i = keyOf op ∨ i ∈ pairs.map Prod.fst := by
  cases op with
  | get key => exact ⟨[key],rfl,by simp [keyOf],fun i inside => .inl (List.mem_singleton.mp inside)⟩
  | set key data fresh =>
    cases hit : cache.hashMap key with
    | some a =>
      refine ⟨[key],?_,by simp [keyOf],fun i inside => .inl (List.mem_singleton.mp inside)⟩
      simp only [cacheIndices,setIndices,rep.lookup enough,hit,bind,Option.bind_some]
      rfl
    | none =>
      have bounded := rep.bounded
      have capacity := rep.capacity
      by_cases full : cache.lruListSize + 1 > cache.cacheCapacity
      · obtain ⟨k,member,used⟩ := missFullIndices data rep enough hit possible (by omega) full
        refine ⟨_,used,by simp [keyOf],fun i inside => ?_⟩
        simp only [List.mem_cons,List.not_mem_nil,or_false] at inside
        rcases inside with rfl | rfl | rfl | rfl | rfl
        · exact .inl rfl
        · exact .inr member
        · exact .inr member
        · exact .inl rfl
        · exact .inl rfl
      · refine ⟨_,missRoomIndices data rep enough hit possible (by omega),by simp [keyOf],fun i inside => .inl ?_⟩
        simpa [keyOf] using inside

theorem keysOfStep {op : CacheOp} : ∀ k ∈ (recencyStep limit op pairs).map Prod.fst,
    k = keyOf op ∨ k ∈ pairs.map Prod.fst := by
  have rest (key : Int) : ∀ k ∈ (without key pairs).map Prod.fst, k ∈ pairs.map Prod.fst := fun k member => by
    obtain ⟨p,kept,rfl⟩ := List.mem_map.mp member
    exact List.mem_map_of_mem (List.mem_of_mem_filter kept)
  intro k member
  cases op with
  | set key data fresh =>
    simp only [recencyStep,recencySet] at member
    split at member
    · rcases List.mem_cons.mp member with own | member
      · exact .inl own
      · exact .inr (rest key k member)
    · rcases List.mem_cons.mp member with own | member
      · exact .inl own
      · refine .inr ?_
        split at member
        · exact member
        · obtain ⟨p,kept,rfl⟩ := List.mem_map.mp member
          exact List.mem_map_of_mem (List.dropLast_subset pairs kept)
  | get key =>
    simp only [recencyStep,recencyGet] at member
    split at member
    next p found =>
      rcases List.mem_cons.mp member with own | member
      · exact .inr (own ▸ List.mem_map_of_mem (List.mem_of_find?_eq_some found))
      · exact .inr (rest key k member)
    · exact .inr member

/-- What the calls so far have used: their own keys, all of them and no other. -/
structure Traced (limit : Int) (keys : List Int) (s : LRUCache × List Int) : Prop where
  represents : ∃ cells pairs, Represents limit s.1 cells pairs ∧ ∀ k ∈ pairs.map Prod.fst, k ∈ keys
  used : ∀ i, i ∈ s.2 ↔ i ∈ keys

theorem tracedSpec {keys : List Int} {s : LRUCache × List Int} (traced : Traced limit keys s) (room : 1 ≤ limit)
    (enough : 1 ≤ fuel) {op : CacheOp} (possible : Possible s.1 op) :
    ∃ t, tracedStep fuel s op = some t ∧ Traced limit (keyOf op :: keys) t := by
  obtain ⟨cells,pairs,rep,held⟩ := traced.represents
  obtain ⟨indices,took,own,others⟩ := indicesOf rep room enough possible
  obtain ⟨after,more,done,final⟩ := stepRepresents rep room enough possible
  refine ⟨(after,s.2 ++ indices),by simp [tracedStep,took,done],⟨more,_,final,fun k member => ?_⟩,fun i => ?_⟩
  · rcases keysOfStep k member with rfl | member
    · exact List.mem_cons_self
    · exact List.mem_cons_of_mem _ (held k member)
  · simp only [List.mem_append,List.mem_cons,traced.used i]
    refine ⟨fun inside => ?_,fun inside => ?_⟩
    · rcases inside with before | now
      · exact .inr before
      · exact (others i now).imp id (held i)
    · rcases inside with rfl | before
      · exact .inr own
      · exact .inl before

theorem runTraced {order : ByteOrder} {calls : List Caller} {s : LRUCache × List Int} (room : 1 ≤ limit)
    (enough : 1 ≤ fuel) (run : Reach (Takes (callerStep order fuel)) (LRUCacheCreate limit,[]) calls s) :
    Traced limit (calls.map fun caller => keyOf (caller.op order)) s := by
  let traced := fun (calls : List Caller) s => Traced limit (calls.map fun caller => keyOf (caller.op order)) s
  have preserved : ∀ {past s caller t}, Reach (Takes (callerStep order fuel)) (LRUCacheCreate limit,[]) past s →
      traced past s → Takes (callerStep order fuel) s caller t → traced (caller :: past) t :=
        fun {past s caller t} _ traced taken => by
    have possible : Possible s.1 (caller.op order) := by
      simp only [Takes,callerStep,tracedStep,bind,Option.bind_eq_some_iff] at taken
      obtain ⟨_,_,after,moved,_⟩ := taken
      exact takenPossible moved
    obtain ⟨next,done,final⟩ := tracedSpec traced room enough possible
    obtain rfl := Option.some.inj (done.symm.trans taken)
    exact final
  have initial : traced [] (LRUCacheCreate limit,[]) := ⟨⟨[],[],createRepresents room,by simp⟩,fun i => by simp⟩
  exact reachHistory initial preserved run

end

/-- Every access stays inside the table exactly when every slot number that the callers
pass is below the number of entries that the table was allocated for. -/
theorem hashInRange {order : ByteOrder} {fuel : Nat} (enough : 1 ≤ fuel) {calls : List Caller} {s : LRUCache × List Int}
    (run : Reach (Takes (callerStep order fuel)) (LRUCacheCreate MAX_LRU_TRACK_NUM,[]) calls s) :
    ((∀ i ∈ s.2, 0 ≤ i ∧ i < hashChains MAX_LRU_TRACK_NUM) ↔
      ∀ caller ∈ calls, keyOf (caller.op order) < (MAX_LRU_TRACK_NUM : Int)) ∧
      ∀ caller : Caller, Possible s.1 (caller.op order) → ∃ t, callerStep order fuel s caller = some t := by
  have traced := runTraced (by decide) enough run
  have natural (caller : Caller) : 0 ≤ keyOf (caller.op order) := by
    cases caller <;> exact Int.natCast_nonneg _
  refine ⟨⟨fun inside caller called => ?_,fun low i used => ?_⟩,fun caller possible => ?_⟩
  · exact (inside _ ((traced.used _).mpr (List.mem_map_of_mem called))).2
  · obtain ⟨caller,called,rfl⟩ := List.mem_map.mp ((traced.used i).mp used)
    exact ⟨natural caller,low caller called⟩
  · obtain ⟨t,done,_⟩ := tracedSpec traced (by decide) enough possible
    exact ⟨t,done⟩

def lowSlots : List Caller := [.processCommand 5 0,.clusterProcessPacket 0x0700 4 1,.reader 5]

theorem hashInRangeShown : ∃ s, Reach (Takes (callerStep .little 1)) (LRUCacheCreate MAX_LRU_TRACK_NUM,[])
    lowSlots.reverse s ∧ ∀ i ∈ s.2, 0 ≤ i ∧ i < hashChains MAX_LRU_TRACK_NUM := by
  have runs : (replay (callerStep .little 1) (LRUCacheCreate MAX_LRU_TRACK_NUM,[]) lowSlots).isSome = true := by
    decide +kernel
  have run := replayReach (Option.some_get runs).symm
  exact ⟨_,run,(hashInRange (Nat.le_refl 1) run).1.mpr (by decide)⟩

def highSlot : List Caller := [.processCommand 5000 0]

theorem hashOutOfRange : ¬ ∀ (calls : List Caller) (s : LRUCache × List Int),
    Reach (Takes (callerStep .little 1)) (LRUCacheCreate MAX_LRU_TRACK_NUM,[]) calls s →
    ∀ i ∈ s.2, 0 ≤ i ∧ i < hashChains MAX_LRU_TRACK_NUM := by
  intro bounded
  have seen : (replay (callerStep .little 1) (LRUCacheCreate MAX_LRU_TRACK_NUM,[]) highSlot).any
      (fun s => s.2.any fun i => decide (10 ≤ i)) = true := by decide +kernel
  obtain ⟨s,done,past⟩ := replaySeen seen
  obtain ⟨i,used,high⟩ := List.any_eq_true.mp past
  have high := of_decide_eq_true high
  have low := (bounded _ s (replayReach done) i used).2
  exact absurd low (Int.not_lt.mpr high)

end HpuCache.HashBounds
