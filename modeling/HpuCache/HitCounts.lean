import HpuCache.LruCache
import Mathlib.Data.List.Infix

/-! What the counts of the recently used slots count. A hit stores the new number with
`data=+data`, which assigns, so only the last number stays. -/
namespace HpuCache.HitCounts
open EventRun RecencyList LruCache

/-- The sum of the numbers passed for a key since the call that found it absent. -/
def hitSum (capacity key : Int) : List CacheOp → Int
  | [] => 0
  | .set k n _ :: past =>
    if k = key then if key ∈ (recencyRun capacity past).map Prod.fst then hitSum capacity key past + n else n
    else hitSum capacity key past
  | .get _ :: past => hitSum capacity key past

/-- The table leads from the key to an entry with this number. -/
def Found (fuel : Nat) (cache : LRUCache) (key data : Int) : Prop :=
  ∃ a e, getValueFromHashMap fuel cache key = some (some a) ∧ cache.heap a = some e ∧ e.data = data

structure Accumulates (fuel : Nat) (capacity : Int) (past : List CacheOp) (cache : LRUCache) : Prop where
  sums : ∀ key data, Found fuel cache key data → data = hitSum capacity key past
  present : ∀ key, key ∈ (recencyRun capacity past).map Prod.fst ↔ ∃ data, Found fuel cache key data

/-- The call stores a number over nothing but a zero. -/
def OverZero (fuel : Nat) (cache : LRUCache) : CacheOp → Prop
  | .set key _ _ => ∀ data, Found fuel cache key data → data = 0
  | .get _ => True

section sums
variable {capacity : Int} {past : List CacheOp}

def Sums (capacity : Int) (past : List CacheOp) : Prop :=
  ∀ p ∈ recencyRun capacity past, p.2 = hitSum capacity p.1 past

theorem sumsGet (key : Int) (sums : Sums capacity past) : Sums capacity (.get key :: past) :=
  fun p member => sums p (memGet member)

/-- The set keeps the sums exactly when it lands on nothing or on a zero. -/
theorem sumsSet (key data : Int) (fresh : Addr) (sums : Sums capacity past) :
    Sums capacity (.set key data fresh :: past) ↔ ∀ old, (key,old) ∈ recencyRun capacity past → old = 0 := by
  constructor
  · intro after old inside
    have stored : data = hitSum capacity key (.set key data fresh :: past) := after (key,data) (setMem _)
    have before : old = hitSum capacity key past := sums (key,old) inside
    have present : key ∈ (recencyRun capacity past).map Prod.fst := List.mem_map_of_mem (f := Prod.fst) inside
    rw [hitSum,if_pos rfl,if_pos present,← before] at stored
    omega
  · intro zero p member
    rcases memSet _ member with rfl | ⟨other,inside⟩
    · rw [hitSum,if_pos rfl]
      split
      · rename_i present
        obtain ⟨⟨k,old⟩,inside,rfl⟩ := List.mem_map.mp present
        have before : old = hitSum capacity k past := sums (k,old) inside
        have bare := zero old inside
        dsimp only
        omega
      · rfl
    · rw [hitSum,if_neg (Ne.symm other)]
      exact sums p inside

end sums

section runs
variable {capacity : Int} {fuel : Nat} {past : List CacheOp} {cache : LRUCache}

theorem foundIff {cells : List Addr} {pairs : List (Int × Int)} (rep : Represents capacity cache cells pairs)
    (enough : 1 ≤ fuel) {key data : Int} : Found fuel cache key data ↔ (key,data) ∈ pairs := by
  constructor
  · rintro ⟨a,e,found,there,rfl⟩
    rw [rep.lookup enough,Option.some_inj] at found
    obtain ⟨_,_,d,_,_,_,rfl,_,stored,_⟩ := rep.split found
    obtain ⟨e',there',_,same,_⟩ := storedEntry stored
    obtain rfl := Option.some.inj (there.symm.trans there')
    rw [same]
    simp
  · intro inside
    have shown : entryOf (key,data) ∈ cells.map cache.stored := rep.stored ▸ List.mem_map_of_mem inside
    obtain ⟨a,there,stored⟩ := List.mem_map.mp shown
    obtain ⟨e,found,_,same,_⟩ := storedEntry stored
    refine ⟨a,e,?_,found,same⟩
    rw [rep.lookup enough,Option.some_inj]
    exact (rep.table key a).mpr ⟨there,data,stored⟩

theorem accumulatesIff (room : 1 ≤ capacity) (enough : 1 ≤ fuel)
    (run : Reach (Takes (cacheStep fuel)) (LRUCacheCreate capacity) past cache) :
    Accumulates fuel capacity past cache ↔ Sums capacity past := by
  obtain ⟨cells,rep⟩ := runRepresents room enough run
  constructor
  · exact fun accumulates p member => accumulates.sums p.1 p.2 ((foundIff rep enough).mpr member)
  · refine fun sums => ⟨fun key data found => sums (key,data) ((foundIff rep enough).mp found),fun key => ?_⟩
    simp [foundIff rep enough]

theorem overZeroIff {cells : List Addr} {op : CacheOp} (rep :
    Represents capacity cache cells (recencyRun capacity past))
    (enough : 1 ≤ fuel) (sums : Sums capacity past) :
    OverZero fuel cache op ↔ Sums capacity (op :: past) := by
  cases op with
  | set key data fresh =>
    rw [sumsSet key data fresh sums]
    exact forall_congr' fun old => by rw [foundIff rep enough]
  | get key => exact iff_of_true trivial (sumsGet key sums)

/-- The numbers are sums in every state of a run exactly when no call of it stores over a number
other than zero. -/
theorem hitCounts (room : 1 ≤ capacity) (enough : 1 ≤ fuel)
    (run : Reach (Takes (cacheStep fuel)) (LRUCacheCreate capacity) past cache) :
    (∀ later earlier between, past = later ++ earlier →
      Reach (Takes (cacheStep fuel)) (LRUCacheCreate capacity) earlier between →
      Accumulates fuel capacity earlier between) ↔
    Reach (Guarded (OverZero fuel) (Takes (cacheStep fuel))) (LRUCacheCreate capacity) past cache := by
  induction run with
  | start =>
    refine iff_of_true (fun later earlier between shape earlierRun => ?_) .start
    obtain ⟨_,rfl⟩ := List.append_eq_nil_iff.mp shape.symm
    exact (accumulatesIff room enough earlierRun).mpr (by simp [Sums,recencyRun])
  | @next past before op after run taken ih =>
    obtain ⟨cells,rep⟩ := runRepresents room enough run
    constructor
    · intro all
      have guarded := ih.mp fun later earlier between shape => all (op :: later) earlier between (by rw [shape]; rfl)
      have sums := (accumulatesIff room enough run).mp (all [op] past before rfl run)
      have now := (accumulatesIff room enough (run.next taken)).mp (all [] _ after rfl (run.next taken))
      exact guarded.next ⟨(overZeroIff rep enough sums).mpr now,taken⟩
    · intro guarded later earlier between shape earlierRun
      cases guarded with
      | next guarded last =>
        obtain ⟨zero,_⟩ := last
        obtain rfl := reachUnique (reachMono (fun h => h.2) guarded) run
        have all := ih.mpr guarded
        cases later with
        | cons _ later =>
          exact all later earlier between (List.cons.inj shape).2 earlierRun
        | nil =>
          obtain rfl : op :: past = earlier := shape
          have sums := (accumulatesIff room enough run).mp (all [] past _ rfl run)
          exact (accumulatesIff room enough earlierRun).mpr ((overZeroIff rep enough sums).mp zero)

end runs

def twoSlots : List CacheOp := [.set 5 1 0,.set 7 1 1,.get 5]

theorem hitCountsShown : ∃ cache, Reach (Takes (cacheStep 1)) (LRUCacheCreate 10) twoSlots.reverse cache ∧
    Reach (Guarded (OverZero 1) (Takes (cacheStep 1))) (LRUCacheCreate 10) twoSlots.reverse cache := by
  have runs : (replay (cacheStep 1) (LRUCacheCreate 10) twoSlots).isSome = true := by decide
  have run := replayReach (Option.some_get runs).symm
  refine ⟨_,run,(hitCounts (by decide) (by decide) run).mp fun later earlier between shape earlierRun => ?_⟩
  have all : ∀ earlier ∈ twoSlots.reverse.tails, ∀ p ∈ recencyRun 10 earlier, p.2 = hitSum 10 p.1 earlier := by decide
  exact (accumulatesIff (by decide) (by decide) earlierRun).mpr
    (all earlier ((List.mem_tails _ _).mpr ⟨later,shape.symm⟩))

/-- A slot that is hit twice still shows one. -/
theorem secondHitLost : ∃ cache, Reach (Takes (cacheStep 1)) (LRUCacheCreate 10) [.set 5 1 1,.set 5 1 0] cache ∧
    Found 1 cache 5 1 ∧ hitSum 10 5 [.set 5 1 1,.set 5 1 0] = 2 ∧
    ¬ Accumulates 1 10 [.set 5 1 1,.set 5 1 0] cache := by
  have runs : (replay (cacheStep 1) (LRUCacheCreate 10) [.set 5 1 0,.set 5 1 1]).isSome = true := by decide
  have run := replayReach (Option.some_get runs).symm
  have room : (1 : Int) ≤ 10 := by decide
  obtain ⟨cells,rep⟩ := runRepresents room (Nat.le_refl 1) run
  have found : Found 1 _ 5 1 := (foundIff rep (Nat.le_refl 1)).mpr (by decide)
  refine ⟨_,run,found,by decide,fun accumulates => ?_⟩
  exact absurd (accumulates.sums 5 1 found) (by decide)

end HpuCache.HitCounts
