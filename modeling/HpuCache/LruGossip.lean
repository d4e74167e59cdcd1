import HpuCache.LruCache
import Mathlib.Algebra.Group.Int.Defs
import Mathlib.Logic.Function.Basic

/-! The message that tells the other nodes about the sender's recently used slots: how
the sender fills its two arrays and what pairs a receiver reads back from them. -/
namespace HpuCache.LruGossip
open LruCache RecencyList EventRun

def MAX_LRU_TRACK_NUM : Nat := 10

inductive ByteOrder where
  | little
  | big

def htons (order : ByteOrder) (value : BitVec 16) : BitVec 16 :=
  match order with
  | .little => value.rotateLeft 8
  | .big => value

def ntohs (order : ByteOrder) (value : BitVec 16) : BitVec 16 := htons order value

structure ClusterMsgLru where
  slotname : Nat → BitVec 32
  opnum : Nat → BitVec 32
  nodename : String

/-- The header is built over a zeroed message. -/
def clusterBuildMessageHdr : ClusterMsgLru := ⟨fun _ => 0,fun _ => 0,""⟩

def fillPairs (order : ByteOrder) (heap : Addr → Option CacheEntry) :
    Nat → Option Addr → Nat → ClusterMsgLru → Option ClusterMsgLru
  | _, none, _, msg => some msg
  | 0, some _, _, _ => none
  | fuel + 1, some entry, _, msg =>
    -- `if (i=10) break;`
    let i := MAX_LRU_TRACK_NUM
    if i ≠ 0 then some msg
    else do
      let e ← heap entry
      fillPairs order heap fuel e.lruListNext (i + 1)
        { msg with
          slotname := Function.update msg.slotname i ((htons order (BitVec.ofInt 16 e.key)).setWidth 32)
          opnum := Function.update msg.opnum i ((htons order (BitVec.ofInt 16 e.data)).setWidth 32) }

/-- The inner `none` is a message that is not sent. -/
def synclrulistincluster (order : ByteOrder) (fuel : Nat) (myself : String) (dynamiclist : Option LRUCache) :
    Option (Option ClusterMsgLru) :=
  match dynamiclist with
  | none => some none
  | some cache =>
    if cache.lruListSize = 0 then some none
    else (fillPairs order cache.heap fuel cache.lruListHead 0 clusterBuildMessageHdr).map fun msg =>
      some { msg with nodename := myself }

def readPairs (order : ByteOrder) (msg : ClusterMsgLru) : List (Int × Int) :=
  (List.range MAX_LRU_TRACK_NUM).map fun i =>
    (((ntohs order ((msg.slotname i).setWidth 16)).toNat : Int),(msg.opnum i).toInt)

def readBy (order : ByteOrder) (clusterLookupNode : String → Bool) : Option ClusterMsgLru → List (Int × Int)
  | none => []
  | some msg => if clusterLookupNode msg.nodename then readPairs order msg else []

theorem fillNothing (order : ByteOrder) (heap : Addr → Option CacheEntry) {fuel : Nat} (enough : 1 ≤ fuel)
    (entry : Option Addr) (i : Nat) (msg : ClusterMsgLru) : fillPairs order heap fuel entry i msg = some msg := by
  cases entry with
  | none => cases fuel <;> rfl
  | some a =>
    cases fuel with
    | zero => omega
    | succ fuel => rfl

theorem readZero (order : ByteOrder) (name : String) :
    readPairs order { clusterBuildMessageHdr with nodename := name } = List.replicate MAX_LRU_TRACK_NUM (0,0) := by
  have pair : (((ntohs order ((0 : BitVec 32).setWidth 16)).toNat : Int),(0 : BitVec 32).toInt) = (0,0) := by
    cases order <;> decide
  simp only [readPairs,clusterBuildMessageHdr,pair]
  rfl

theorem zerosRepeat {pairs : List (Int × Int)} (distinct : (pairs.map Prod.fst).Nodup) :
    List.replicate MAX_LRU_TRACK_NUM (0,0) ≠ pairs := by
  intro same
  subst same
  exact absurd distinct (by decide)

section RoundTrip

variable {sender receiver : ByteOrder} {fuel : Nat} {myself : String} {clusterLookupNode : String → Bool}
  {limit : Int} {cache : LRUCache} {cells : List Addr} {pairs : List (Int × Int)}

theorem gossipEmpty (rep : Represents limit cache cells []) :
    synclrulistincluster sender fuel myself (some cache) = some none := by
  have size : cache.lruListSize = 0 := by
    rw [rep.size,rep.length]
    rfl
  rw [synclrulistincluster,if_pos size]

theorem gossipZeros (rep : Represents limit cache cells pairs) (filled : pairs ≠ []) (enough : 1 ≤ fuel) :
    synclrulistincluster sender fuel myself (some cache) =
      some (some { clusterBuildMessageHdr with nodename := myself }) := by
  have size : ¬ cache.lruListSize = 0 := by
    have length := List.length_pos_iff.mpr filled
    rw [rep.size,rep.length]
    omega
  rw [synclrulistincluster,if_neg size,fillNothing sender cache.heap enough]
  rfl

/-- What a receiver reads is what the sender holds exactly when that is nothing. -/
theorem gossipRoundTrip (rep : Represents limit cache cells pairs) (enough : 1 ≤ fuel)
    (known : clusterLookupNode myself = true) :
    ∃ sent, synclrulistincluster sender fuel myself (some cache) = some sent ∧
      (readBy receiver clusterLookupNode sent = pairs ↔ pairs = []) := by
  by_cases bare : pairs = []
  · subst bare
    exact ⟨_,gossipEmpty rep,by simp [readBy]⟩
  · refine ⟨_,gossipZeros rep bare enough,?_⟩
    simp only [readBy,known,if_true,bare,iff_false,readZero]
    exact zerosRepeat rep.distinct

end RoundTrip

def hotSlot : List CacheOp := [.set 5 1 0]

theorem hotSlotRuns : ∃ cache cells, Reach (Takes (cacheStep 1)) (LRUCacheCreate 10) hotSlot.reverse cache ∧
    Represents 10 cache cells [(5,1)] := by
  have runs : (replay (cacheStep 1) (LRUCacheCreate 10) hotSlot).isSome = true := by decide
  have run := replayReach (Option.some_get runs).symm
  obtain ⟨cells,rep⟩ := runRepresents (by decide) (Nat.le_refl 1) run
  exact ⟨_,cells,run,rep⟩

theorem gossipRoundTripShown : ∃ cache cells, Represents 10 cache cells [(5,1)] ∧
    ∃ sent, synclrulistincluster .little 2 "a" (some cache) = some sent ∧
      (readBy .little (fun name => name == "a") sent = [(5,1)] ↔ [((5 : Int),(1 : Int))] = []) := by
  obtain ⟨cache,cells,_,rep⟩ := hotSlotRuns
  exact ⟨cache,cells,rep,gossipRoundTrip rep (by decide) (by decide)⟩

theorem trackedSlotLost : ¬ ∀ (cache : LRUCache) (cells : List Addr) (pairs : List (Int × Int)),
    Represents 10 cache cells pairs → pairs.length ≤ MAX_LRU_TRACK_NUM →
    (∀ p ∈ pairs, 0 ≤ p.1 ∧ p.1 < 16384 ∧ 0 ≤ p.2 ∧ p.2 < 2 ^ 31) →
    ∃ sent, synclrulistincluster .little 2 "a" (some cache) = some sent ∧
      readBy .little (fun name => name == "a") sent = pairs := by
  intro faithful
  obtain ⟨cache,cells,_,rep⟩ := hotSlotRuns
  obtain ⟨sent,done,same⟩ := faithful cache cells [(5,1)] rep (by decide) (by decide)
  rw [gossipZeros rep (by decide) (by decide)] at done
  obtain rfl := Option.some.inj done
  exact absurd same (by decide)

end HpuCache.LruGossip
