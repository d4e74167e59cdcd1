import HpuCache.DoublyLinked
import HpuCache.EventRun
import HpuCache.RecencyList
import Mathlib.Logic.Function.Basic

/-! The cache of recently used slots: a doubly linked list in the order of use and a
chained hash table over the same entries, both made of pointers into one heap. A step
that would follow a null pointer has no result. -/
namespace HpuCache.LruCache
open DoublyLinked EventRun RecencyList

abbrev Addr := Nat

structure CacheEntry where
  key : Int
  data : Int
  hashListPrev : Option Addr
  hashListNext : Option Addr
  lruListPrev : Option Addr
  lruListNext : Option Addr
  deriving DecidableEq

structure LRUCache where
  cacheCapacity : Int
  lruListSize : Int
  -- A chain for every key.
  hashMap : Int → Option Addr
  lruListHead : Option Addr
  lruListTail : Option Addr
  heap : Addr → Option CacheEntry

def newCacheEntry (key data : Int) : CacheEntry := ⟨key,data,none,none,none,none⟩

def LRUCacheCreate (capacity : Int) : LRUCache := ⟨capacity,0,fun _ => none,none,none,fun _ => none⟩

def LRUCache.load (cache : LRUCache) (entry : Option Addr) : Option CacheEntry := entry.bind cache.heap

def LRUCache.write (cache : LRUCache) (a : Addr) (e : CacheEntry) : LRUCache :=
  { cache with heap := Function.update cache.heap a (some e) }

def LRUCache.store (cache : LRUCache) (entry : Option Addr) (change : CacheEntry → CacheEntry) :
    Option LRUCache :=
  match entry with
  | none => none
  | some a => (cache.heap a).map (fun e => cache.write a (change e))

def removeFromList (cache : LRUCache) (entry : Option Addr) : Option LRUCache :=
  if cache.lruListSize = 0 then some cache else do
    let cache ←
      if entry = cache.lruListHead ∧ entry = cache.lruListTail then
        some { cache with lruListHead := none, lruListTail := none }
      else if entry = cache.lruListHead then do
        let e ← cache.load entry
        { cache with lruListHead := e.lruListNext }.store e.lruListNext (fun n => { n with lruListPrev := none })
      else if entry = cache.lruListTail then do
        let e ← cache.load entry
        { cache with lruListTail := e.lruListPrev }.store e.lruListPrev (fun n => { n with lruListNext := none })
      else do
        let e ← cache.load entry
        let cache ← cache.store e.lruListPrev (fun n => { n with lruListNext := e.lruListNext })
        let e ← cache.load entry
        cache.store e.lruListNext (fun n => { n with lruListPrev := e.lruListPrev })
    some { cache with lruListSize := cache.lruListSize - 1 }

def linkAtHead (cache : LRUCache) (entry : Addr) : Option LRUCache :=
  if cache.lruListHead = none ∧ cache.lruListTail = none then
    some { cache with lruListHead := some entry, lruListTail := some entry }
  else do
    let head := cache.lruListHead
    let cache ← cache.store (some entry) (fun n => { n with lruListNext := head, lruListPrev := none })
    let cache ← cache.store head (fun n => { n with lruListPrev := some entry })
    some { cache with lruListHead := some entry }

def LRUCache.counted (cache : LRUCache) : LRUCache := { cache with lruListSize := cache.lruListSize + 1 }

/-- The second value is the entry that was taken out to make room. -/
def insertToListHead (cache : LRUCache) (entry : Addr) : Option (LRUCache × Option Addr) :=
  let cache := cache.counted
  if cache.lruListSize > cache.cacheCapacity then do
    let after ← removeFromList cache cache.lruListTail
    (linkAtHead after entry).map (fun after => (after,cache.lruListTail))
  else (linkAtHead cache entry).map (fun after => (after,none))

def updateLRUList (cache : LRUCache) (entry : Addr) : Option LRUCache := do
  let cache ← removeFromList cache (some entry)
  (insertToListHead cache entry).map Prod.fst

/-- The walk along one chain; the outer `none` is a null pointer or no fuel. -/
def chainWalk (heap : Addr → Option CacheEntry) (key : Int) : Nat → Option Addr → Option (Option Addr)
  | _, none => some none
  | 0, some _ => none
  | fuel + 1, some a => do
    let e ← heap a
    if e.key = key then some (some a) else chainWalk heap key fuel e.hashListNext

def getValueFromHashMap (fuel : Nat) (cache : LRUCache) (key : Int) : Option (Option Addr) :=
  chainWalk cache.heap key fuel (cache.hashMap key)

def insertentryToHashMap (cache : LRUCache) (entry : Addr) : Option LRUCache := do
  let e ← cache.heap entry
  let n := cache.hashMap e.key
  let cache ← if n.isSome then do
      let cache ← cache.store (some entry) (fun m => { m with hashListNext := n })
      cache.store n (fun m => { m with hashListPrev := some entry })
    else some cache
  some { cache with hashMap := Function.update cache.hashMap e.key (some entry) }

def removeEntryFromHashMap (fuel : Nat) (cache : LRUCache) (entry : Addr) : Option LRUCache := do
  let e ← cache.heap entry
  match ← chainWalk cache.heap e.key fuel (cache.hashMap e.key) with
  | none => some cache
  | some a =>
    let n ← cache.heap a
    let cache ← if n.hashListPrev.isSome then
        cache.store n.hashListPrev (fun m => { m with hashListNext := n.hashListNext })
      else some { cache with hashMap := Function.update cache.hashMap e.key n.hashListNext }
    if n.hashListNext.isSome then cache.store n.hashListNext (fun m => { m with hashListPrev := n.hashListPrev })
    else some cache

def freeCacheEntry (cache : LRUCache) (entry : Addr) : LRUCache :=
  { cache with heap := Function.update cache.heap entry none }

/-- `fresh` is the address that `malloc` gives to a new entry. -/
def LRUCacheSet (fuel : Nat) (cache : LRUCache) (key data : Int) (fresh : Addr) : Option LRUCache := do
  match ← getValueFromHashMap fuel cache key with
  | some entry =>
    let cache ← cache.store (some entry) (fun e => { e with data := data })
    updateLRUList cache entry
  | none =>
    let cache := cache.write fresh (newCacheEntry key data)
    let (cache,removedEntry) ← insertToListHead cache fresh
    let cache ← match removedEntry with
      | none => some cache
      | some removed => (removeEntryFromHashMap fuel cache removed).map (fun cache => freeCacheEntry cache removed)
    insertentryToHashMap cache fresh

/-- The value is what the function returns; a missing key gives a null pointer cast to a number. -/
def LRUCacheGet (fuel : Nat) (cache : LRUCache) (key : Int) : Option (LRUCache × Int) := do
  match ← getValueFromHashMap fuel cache key with
  | some entry =>
    let cache ← updateLRUList cache entry
    let e ← cache.heap entry
    some (cache,e.data)
  | none => some (cache,0)

def LRUCache.next (cache : LRUCache) (a : Addr) : Option Addr := (cache.heap a).bind CacheEntry.lruListNext
def LRUCache.prev (cache : LRUCache) (a : Addr) : Option Addr := (cache.heap a).bind CacheEntry.lruListPrev

structure Listed (cache : LRUCache) (cells : List Addr) : Prop where
  chain : Chain cache.next cache.prev none cells none
  distinct : cells.Nodup
  head : cache.lruListHead = cells.head?
  tail : cache.lruListTail = cells.getLast?
  live : ∀ a ∈ cells, ∃ e, cache.heap a = some e

def CacheEntry.rest (e : CacheEntry) : Int × Int × Option Addr × Option Addr :=
  (e.key,e.data,e.hashListPrev,e.hashListNext)

structure Kept (cache after : LRUCache) : Prop where
  capacity : after.cacheCapacity = cache.cacheCapacity
  hashMap : after.hashMap = cache.hashMap
  rest : ∀ a, (after.heap a).map CacheEntry.rest = (cache.heap a).map CacheEntry.rest

theorem Kept.trans {a b c : LRUCache} (first : Kept a b) (second : Kept b c) : Kept a c :=
  ⟨second.capacity.trans first.capacity,second.hashMap.trans first.hashMap,
    fun p => (second.rest p).trans (first.rest p)⟩

theorem Kept.live {cache after : LRUCache} (kept : Kept cache after) {a : Addr} :
    (∃ e, after.heap a = some e) ↔ ∃ e, cache.heap a = some e := by
  have same := congrArg Option.isSome (kept.rest a)
  rw [Option.isSome_map,Option.isSome_map] at same
  rw [← Option.isSome_iff_exists,← Option.isSome_iff_exists,same]

theorem storeWrite {cache : LRUCache} {a : Addr} {e : CacheEntry} (found : cache.heap a = some e)
    (change : CacheEntry → CacheEntry) : cache.store (some a) change = some (cache.write a (change e)) := by
  simp [LRUCache.store,found]

@[simp] theorem nextWrite (cache : LRUCache) (a b : Addr) (e : CacheEntry) :
    (cache.write a e).next b = if b = a then e.lruListNext else cache.next b := by
  by_cases same : b = a <;> simp [LRUCache.next,LRUCache.write,same]

@[simp] theorem prevWrite (cache : LRUCache) (a b : Addr) (e : CacheEntry) :
    (cache.write a e).prev b = if b = a then e.lruListPrev else cache.prev b := by
  by_cases same : b = a <;> simp [LRUCache.prev,LRUCache.write,same]

theorem nextOf {cache : LRUCache} {a : Addr} {e : CacheEntry} (found : cache.heap a = some e) :
    cache.next a = e.lruListNext := by
  simp [LRUCache.next,found]

theorem prevOf {cache : LRUCache} {a : Addr} {e : CacheEntry} (found : cache.heap a = some e) :
    cache.prev a = e.lruListPrev := by
  simp [LRUCache.prev,found]

theorem nextStays {cache : LRUCache} {a : Addr} {e : CacheEntry} (found : cache.heap a = some e) (x : Option Addr)
    (b : Addr) : (cache.write a { e with lruListPrev := x }).next b = cache.next b := by
  rw [nextWrite,ite_eq_right_iff]
  intro same
  simp [LRUCache.next,same,found]

theorem prevStays {cache : LRUCache} {a : Addr} {e : CacheEntry} (found : cache.heap a = some e) (x : Option Addr)
    (b : Addr) : (cache.write a { e with lruListNext := x }).prev b = cache.prev b := by
  rw [prevWrite,ite_eq_right_iff]
  intro same
  simp [LRUCache.prev,same,found]

theorem writeFrame (cache : LRUCache) {a b : Addr} (e : CacheEntry) (other : b ≠ a) :
    (cache.write a e).heap b = cache.heap b := Function.update_of_ne other _ _

theorem writeKept {cache : LRUCache} {a : Addr} {e after : CacheEntry} (found : cache.heap a = some e)
    (same : after.rest = e.rest) : Kept cache (cache.write a after) := by
  refine ⟨rfl,rfl,fun b => ?_⟩
  by_cases here : b = a
  · subst here
    simp [LRUCache.write,found,same]
  · simp [LRUCache.write,here]

theorem Listed.frame {cache after : LRUCache} {cells : List Addr} (listed : Listed cache cells)
    (same : ∀ a ∈ cells, after.heap a = cache.heap a) (head : after.lruListHead = cache.lruListHead)
    (tail : after.lruListTail = cache.lruListTail) : Listed after cells := by
  refine ⟨chainFrame listed.chain ?_,listed.distinct,head.trans listed.head,tail.trans listed.tail,?_⟩
  · intro a member
    simp only [LRUCache.next,LRUCache.prev,same a member,and_self]
  · intro a member
    rw [same a member]
    exact listed.live a member

theorem Listed.cell {cache : LRUCache} {front back : List Addr} {p : Addr}
    (listed : Listed cache (front ++ p :: back)) :
    ∃ e, cache.heap p = some e ∧ e.lruListPrev = front.getLast? ∧ e.lruListNext = back.head? := by
  obtain ⟨e,found⟩ := listed.live p (by simp)
  obtain ⟨_,before,after,_⟩ := chainAppend.mp listed.chain
  rw [Option.or_none] at before after
  exact ⟨e,found,by simpa [LRUCache.prev,found] using before,by simpa [LRUCache.next,found] using after⟩

theorem Listed.ends {cache : LRUCache} {front back : List Addr} {p : Addr}
    (listed : Listed cache (front ++ p :: back)) :
    (some p = cache.lruListHead ↔ front = []) ∧ (some p = cache.lruListTail ↔ back = []) := by
  obtain ⟨left,right,apart⟩ := List.nodup_append.mp listed.distinct
  obtain ⟨fresh,_⟩ := List.nodup_cons.mp right
  constructor
  · cases front with
    | nil => simp [listed.head]
    | cons x more =>
      have other : x ≠ p := apart x List.mem_cons_self p List.mem_cons_self
      simp [listed.head,Ne.symm other]
  · cases back with
    | nil => simp [listed.tail]
    | cons x more =>
      have other : (x :: more).getLast? ≠ some p := fun same => fresh (List.mem_of_getLast? same)
      have last : (front ++ p :: x :: more).getLast? = (x :: more).getLast? := by
        simp [List.getLast?_append,List.getLast?_cons]
      simp [listed.tail,last,Ne.symm other]

structure Unlinked (cache after : LRUCache) (front back : List Addr) : Prop where
  kept : Kept cache after
  frame : ∀ a, a ∉ front ++ back → after.heap a = cache.heap a
  head : after.lruListHead = (front ++ back).head?
  tail : after.lruListTail = (front ++ back).getLast?
  nexts : ∀ q ∈ front ++ back, after.next q = if some q = front.getLast? then back.head? else cache.next q
  prevs : ∀ q ∈ front ++ back, after.prev q = if some q = back.head? then front.getLast? else cache.prev q
  size : after.lruListSize = cache.lruListSize - 1

theorem Unlinked.listed {cache after : LRUCache} {front back : List Addr} {p : Addr}
    (unlinked : Unlinked cache after front back) (listed : Listed cache (front ++ p :: back)) :
    Listed after (front ++ back) := by
  have sub : (front ++ back).Sublist (front ++ p :: back) :=
      List.Sublist.append_left (List.sublist_cons_self p back) front
  exact ⟨chainUnlink listed.distinct listed.chain unlinked.nexts unlinked.prevs,listed.distinct.sublist sub,
    unlinked.head,unlinked.tail,fun a member => unlinked.kept.live.mpr (listed.live a (sub.subset member))⟩

theorem removeOnly {cache : LRUCache} {p : Addr} (listed : Listed cache [p]) (filled : cache.lruListSize ≠ 0) :
    ∃ after, removeFromList cache (some p) = some after ∧ Unlinked cache after [] [] := by
  refine ⟨{ cache with lruListHead := none, lruListTail := none, lruListSize := cache.lruListSize - 1 },?_,?_⟩
  · simp [removeFromList,filled,listed.head,listed.tail]
  · exact ⟨⟨rfl,rfl,fun _ => rfl⟩,fun _ _ => rfl,rfl,rfl,by simp,by simp,rfl⟩

theorem removeFirst {cache : LRUCache} {p b : Addr} {back : List Addr} (listed : Listed cache (p :: b :: back))
    (filled : cache.lruListSize ≠ 0) :
    ∃ after, removeFromList cache (some p) = some after ∧ Unlinked cache after [] (b :: back) := by
  have alone : Listed cache ([] ++ p :: b :: back) := listed
  obtain ⟨e,found,_,follows⟩ := alone.cell
  obtain ⟨n,there⟩ := listed.live b (by simp)
  obtain ⟨atHead,atTail⟩ := alone.ends
  have head : some p = cache.lruListHead := atHead.mpr rfl
  have tail : ¬ some p = cache.lruListTail := fun same => nomatch atTail.mp same
  have kept : Kept cache (cache.write b { n with lruListPrev := none }) := writeKept there rfl
  refine ⟨{ cache.write b { n with lruListPrev := none } with
    lruListHead := some b, lruListSize := cache.lruListSize - 1 },?_,⟨kept.capacity,kept.hashMap,kept.rest⟩,
    ?_,rfl,?_,?_,?_,rfl⟩
  · unfold removeFromList
    rw [if_neg filled,if_neg (fun both => tail both.2),if_pos head]
    simp [LRUCache.load,LRUCache.store,LRUCache.write,found,follows,there]
  · intro a outside
    exact writeFrame cache _ (fun same => outside (by simp [same]))
  · exact listed.tail.trans (by simp [List.getLast?_cons])
  · exact fun q _ => (nextStays there none q).trans (by simp)
  · exact fun q _ => (prevWrite cache b q { n with lruListPrev := none }).trans (by simp)

theorem removeLast {cache : LRUCache} {p f : Addr} {front : List Addr} (listed : Listed cache (front ++ [f] ++ [p]))
    (filled : cache.lruListSize ≠ 0) :
    ∃ after, removeFromList cache (some p) = some after ∧ Unlinked cache after (front ++ [f]) [] := by
  obtain ⟨e,found,before,_⟩ := listed.cell
  obtain ⟨n,there⟩ := listed.live f (by simp)
  obtain ⟨atHead,atTail⟩ := listed.ends
  have head : ¬ some p = cache.lruListHead := fun same => by simpa using atHead.mp same
  have tail : some p = cache.lruListTail := atTail.mpr rfl
  have kept : Kept cache (cache.write f { n with lruListNext := none }) := writeKept there rfl
  rw [List.getLast?_concat] at before
  refine ⟨{ cache.write f { n with lruListNext := none } with
    lruListTail := some f, lruListSize := cache.lruListSize - 1 },?_,⟨kept.capacity,kept.hashMap,kept.rest⟩,
    ?_,?_,?_,?_,?_,rfl⟩
  · unfold removeFromList
    rw [if_neg filled,if_neg (fun both => head both.1),if_neg head,if_pos tail]
    simp [LRUCache.load,LRUCache.store,LRUCache.write,found,before,there]
  · intro a outside
    exact writeFrame cache _ (fun same => outside (by simp [same]))
  · exact listed.head.trans (by simp [List.head?_append])
  · simp
  · exact fun q _ => (nextWrite cache f q { n with lruListNext := none }).trans (by simp)
  · exact fun q _ => (prevStays there none q).trans (by simp)

theorem removeInner {cache : LRUCache} {p f b : Addr} {front back : List Addr}
    (listed : Listed cache (front ++ [f] ++ p :: b :: back)) (filled : cache.lruListSize ≠ 0) :
    ∃ after, removeFromList cache (some p) = some after ∧ Unlinked cache after (front ++ [f]) (b :: back) := by
  obtain ⟨e,found,before,follows⟩ := listed.cell
  obtain ⟨n,there⟩ := listed.live f (by simp)
  obtain ⟨m,behind⟩ := listed.live b (by simp)
  obtain ⟨atHead,atTail⟩ := listed.ends
  have head : ¬ some p = cache.lruListHead := fun same => by simpa using atHead.mp same
  have tail : ¬ some p = cache.lruListTail := fun same => nomatch atTail.mp same
  obtain ⟨_,right,apart⟩ := List.nodup_append.mp listed.distinct
  have pf : p ≠ f := fun same => apart f (by simp) p (by simp) same.symm
  have bf : b ≠ f := fun same => apart f (by simp) b (by simp) same.symm
  rw [List.getLast?_concat] at before
  rw [List.head?_cons] at follows
  let once := cache.write f { n with lruListNext := some b }
  have foundOnce : once.heap p = some e := (writeFrame cache _ pf).trans found
  have behindOnce : once.heap b = some m := (writeFrame cache _ bf).trans behind
  have keptOnce : Kept cache once := writeKept there rfl
  have kept : Kept cache (once.write b { m with lruListPrev := some f }) := keptOnce.trans (writeKept behindOnce rfl)
  refine ⟨{ once.write b { m with lruListPrev := some f } with lruListSize := cache.lruListSize - 1 },?_,
    ⟨kept.capacity,kept.hashMap,kept.rest⟩,?_,?_,?_,?_,?_,rfl⟩
  · have first : cache.store (some f) (fun n => { n with lruListNext := some b }) = some once := storeWrite there _
    have second : once.store (some b) (fun n => { n with lruListPrev := some f }) = some _ := storeWrite behindOnce _
    unfold removeFromList
    rw [if_neg filled,if_neg (fun both => head both.1),if_neg head,if_neg tail]
    simp [LRUCache.load,found,before,follows,first,foundOnce,second]
    rfl
  · intro a outside
    have notB : a ≠ b := fun same => outside (by simp [same])
    have notF : a ≠ f := fun same => outside (by simp [same])
    exact (writeFrame once _ notB).trans (writeFrame cache _ notF)
  · exact listed.head.trans (by simp [List.head?_append])
  · exact listed.tail.trans (by simp [List.getLast?_append,List.getLast?_cons])
  · intro q _
    have link := (nextStays behindOnce (some f) q).trans (nextWrite cache f q _)
    exact link.trans (by simp)
  · intro q _
    have link := prevWrite once b q { m with lruListPrev := some f }
    rw [prevStays there (some b) q] at link
    exact link.trans (by simp)

theorem removeSpec {cache : LRUCache} {front back : List Addr} {p : Addr}
    (listed : Listed cache (front ++ p :: back)) (filled : cache.lruListSize ≠ 0) :
    ∃ after, removeFromList cache (some p) = some after ∧ Unlinked cache after front back := by
  rcases List.eq_nil_or_concat' front with rfl | ⟨front,f,rfl⟩
  · cases back with
    | nil => exact removeOnly listed filled
    | cons b back => exact removeFirst listed filled
  · cases back with
    | nil => exact removeLast listed filled
    | cons b back => exact removeInner listed filled

structure Pushed (cache after : LRUCache) (p : Addr) (cells : List Addr) : Prop where
  kept : Kept cache after
  frame : ∀ a, a ∉ p :: cells → after.heap a = cache.heap a
  listed : Listed after (p :: cells)
  size : after.lruListSize = cache.lruListSize

theorem linkFirst {cache : LRUCache} {p : Addr} {e : CacheEntry} (listed : Listed cache [])
    (found : cache.heap p = some e) (bare : e.lruListPrev = none ∧ e.lruListNext = none) :
    ∃ after, linkAtHead cache p = some after ∧ Pushed cache after p [] := by
  have head : cache.lruListHead = none := listed.head
  have tail : cache.lruListTail = none := listed.tail
  refine ⟨{ cache with lruListHead := some p, lruListTail := some p },if_pos ⟨head,tail⟩,
    ⟨rfl,rfl,fun _ => rfl⟩,fun _ _ => rfl,⟨?_,List.nodup_singleton p,rfl,rfl,?_⟩,rfl⟩
  · exact ⟨(prevOf found).trans bare.1,(nextOf found).trans bare.2,trivial⟩
  · intro a member
    obtain rfl := List.mem_singleton.mp member
    exact ⟨e,found⟩

theorem linkFront {cache : LRUCache} {p b : Addr} {back : List Addr} {e : CacheEntry}
    (listed : Listed cache (b :: back)) (fresh : p ∉ b :: back) (found : cache.heap p = some e) :
    ∃ after, linkAtHead cache p = some after ∧ Pushed cache after p (b :: back) := by
  obtain ⟨n,there⟩ := listed.live b List.mem_cons_self
  have head : cache.lruListHead = some b := listed.head
  have apart : b ≠ p := fun same => fresh (same ▸ List.mem_cons_self)
  let once := cache.write p { e with lruListNext := some b, lruListPrev := none }
  have thereOnce : once.heap b = some n := (writeFrame cache _ apart).trans there
  have keptOnce : Kept cache once := writeKept found rfl
  have kept : Kept cache (once.write b { n with lruListPrev := some p }) := keptOnce.trans (writeKept thereOnce rfl)
  have links (q : Addr) (member : q ∈ b :: back) : once.next q = cache.next q ∧ once.prev q = cache.prev q := by
    have other : q ≠ p := fun same => fresh (same ▸ member)
    exact ⟨(nextWrite cache p q _).trans (if_neg other),(prevWrite cache p q _).trans (if_neg other)⟩
  refine ⟨{ once.write b { n with lruListPrev := some p } with lruListHead := some p },?_,
    ⟨kept.capacity,kept.hashMap,kept.rest⟩,?_,⟨chainPush listed.distinct listed.chain ?_ ?_ ?_,?_,rfl,?_,?_⟩,rfl⟩
  · have first : cache.store (some p) (fun n => { n with lruListNext := some b, lruListPrev := none }) = some once :=
      storeWrite found _
    have second : once.store (some b) (fun n => { n with lruListPrev := some p }) = some _ := storeWrite thereOnce _
    unfold linkAtHead
    rw [if_neg (by simp [head])]
    simp only [head,first,bind,Option.bind_some,second]
  · intro a outside
    simp only [List.mem_cons,not_or] at outside
    exact (writeFrame once _ outside.2.1).trans (writeFrame cache _ outside.1)
  · exact (prevWrite once b p _).trans ((if_neg (Ne.symm apart)).trans ((prevWrite cache p p _).trans (if_pos rfl)))
  · exact (nextWrite once b p _).trans ((if_neg (Ne.symm apart)).trans ((nextWrite cache p p _).trans (if_pos rfl)))
  · intro q member
    refine ⟨(nextStays thereOnce (some p) q).trans (links q member).1,(prevWrite once b q _).trans ?_⟩
    simp only [(links q member).2,List.head?_cons,Option.some_inj]
  · exact List.nodup_cons.mpr ⟨fresh,listed.distinct⟩
  · exact listed.tail.trans (by simp [List.getLast?_cons])
  · intro a member
    refine kept.live.mpr ?_
    rcases List.mem_cons.mp member with rfl | member
    · exact ⟨e,found⟩
    · exact listed.live a member

theorem linkSpec {cache : LRUCache} {p : Addr} {cells : List Addr} {e : CacheEntry} (listed : Listed cache cells)
    (fresh : p ∉ cells) (found : cache.heap p = some e)
    (bare : cells = [] → e.lruListPrev = none ∧ e.lruListNext = none) :
    ∃ after, linkAtHead cache p = some after ∧ Pushed cache after p cells := by
  cases cells with
  | nil => exact linkFirst listed found (bare rfl)
  | cons b back => exact linkFront listed fresh found

theorem insertRoom {cache : LRUCache} {p : Addr} (small : ¬ cache.lruListSize + 1 > cache.cacheCapacity) :
    insertToListHead cache p = (linkAtHead cache.counted p).map (fun after => (after,none)) := if_neg small

theorem insertFull {cache : LRUCache} {p : Addr} (full : cache.lruListSize + 1 > cache.cacheCapacity) :
    insertToListHead cache p = (removeFromList cache.counted cache.lruListTail).bind
      (fun after => (linkAtHead after p).map (fun after => (after,cache.lruListTail))) := if_pos full

theorem pushRoom {cache : LRUCache} {cells : List Addr} {p : Addr} {e : CacheEntry} (listed : Listed cache cells)
    (small : cache.lruListSize + 1 ≤ cache.cacheCapacity) (outside : p ∉ cells) (found : cache.heap p = some e)
    (bare : cells = [] → e.lruListPrev = none ∧ e.lruListNext = none) :
    ∃ linked, insertToListHead cache p = some (linked,none) ∧ Listed linked (p :: cells) ∧ Kept cache linked ∧
      linked.lruListSize = cache.lruListSize + 1 := by
  have counted : Listed cache.counted cells := listed.frame (fun _ _ => rfl) rfl rfl
  obtain ⟨linked,done,pushed⟩ := linkSpec counted outside found bare
  refine ⟨linked,?_,pushed.listed,⟨pushed.kept.capacity,pushed.kept.hashMap,pushed.kept.rest⟩,pushed.size⟩
  rw [insertRoom (Int.not_lt.mpr small),done]
  rfl

theorem pushFull {cache : LRUCache} {front : List Addr} {t p : Addr} {e : CacheEntry}
    (listed : Listed cache (front ++ [t])) (full : cache.lruListSize + 1 > cache.cacheCapacity)
    (filled : cache.lruListSize + 1 ≠ 0) (outside : p ∉ front ++ [t]) (found : cache.heap p = some e)
    (bare : e.lruListPrev = none ∧ e.lruListNext = none) :
    ∃ linked, insertToListHead cache p = some (linked,some t) ∧ Listed linked (p :: front) ∧ Kept cache linked ∧
      linked.lruListSize = cache.lruListSize := by
  have counted : Listed cache.counted (front ++ [t]) := listed.frame (fun _ _ => rfl) rfl rfl
  have tail : cache.lruListTail = some t := listed.tail.trans List.getLast?_concat
  have outFront : p ∉ front := fun member => outside (List.mem_append_left _ member)
  obtain ⟨cut,removed,unlinked⟩ := removeSpec counted filled
  have listedCut : Listed cut front := List.append_nil front ▸ unlinked.listed counted
  have written : cut.heap p = some e := (unlinked.frame p (by simpa using outFront)).trans found
  obtain ⟨linked,done,pushed⟩ := linkSpec listedCut outFront written fun _ => bare
  have kept := unlinked.kept.trans pushed.kept
  refine ⟨linked,?_,pushed.listed,⟨kept.capacity,kept.hashMap,kept.rest⟩,?_⟩
  · rw [insertFull full,tail,removed]
    simp only [Option.bind_some,done,Option.map_some]
  · have size : cut.lruListSize = cache.lruListSize + 1 - 1 := unlinked.size
    have same := pushed.size
    omega

theorem updateSpec {cache : LRUCache} {front back : List Addr} {p : Addr}
    (listed : Listed cache (front ++ p :: back)) (filled : cache.lruListSize ≠ 0)
    (bounded : cache.lruListSize ≤ cache.cacheCapacity) :
    ∃ after, updateLRUList cache p = some after ∧ Listed after (p :: (front ++ back)) ∧ Kept cache after ∧
      after.lruListSize = cache.lruListSize := by
  obtain ⟨cut,removed,unlinked⟩ := removeSpec listed filled
  obtain ⟨e,found,before,follows⟩ := listed.cell
  obtain ⟨left,right,apart⟩ := List.nodup_append.mp listed.distinct
  have fresh : p ∉ front ++ back := by
    intro inside
    rcases List.mem_append.mp inside with inside | inside
    · exact apart p inside p List.mem_cons_self rfl
    · exact (List.nodup_cons.mp right).1 inside
  have same : cut.heap p = some e := (unlinked.frame p fresh).trans found
  have small : cut.lruListSize + 1 ≤ cut.cacheCapacity := by
    have size := unlinked.size
    have capacity := unlinked.kept.capacity
    omega
  have bare : front ++ back = [] → e.lruListPrev = none ∧ e.lruListNext = none := by
    intro alone
    obtain ⟨rfl,rfl⟩ := List.append_eq_nil_iff.mp alone
    exact ⟨before,follows⟩
  obtain ⟨after,pushed,listedAfter,kept,count⟩ := pushRoom (unlinked.listed listed) small fresh same bare
  refine ⟨after,?_,listedAfter,unlinked.kept.trans kept,?_⟩
  · simp only [updateLRUList,removed,bind,Option.bind_some,pushed,Option.map_some]
  · have size := unlinked.size
    omega

def LRUCache.stored (cache : LRUCache) (a : Addr) : Option (Int × Int × Option Addr × Option Addr) :=
  (cache.heap a).map CacheEntry.rest

def entryOf (p : Int × Int) : Option (Int × Int × Option Addr × Option Addr) := some (p.1,p.2,none,none)

structure Represents (limit : Int) (cache : LRUCache) (cells : List Addr) (pairs : List (Int × Int)) : Prop where
  listed : Listed cache cells
  stored : cells.map cache.stored = pairs.map entryOf
  distinct : (pairs.map Prod.fst).Nodup
  table : ∀ k a, cache.hashMap k = some a ↔ a ∈ cells ∧ ∃ d, cache.stored a = entryOf (k,d)
  size : cache.lruListSize = cells.length
  bounded : cache.lruListSize ≤ cache.cacheCapacity
  capacity : cache.cacheCapacity = limit

variable {limit : Int} {cache : LRUCache} {cells : List Addr} {pairs : List (Int × Int)}

theorem Represents.length (rep : Represents limit cache cells pairs) : cells.length = pairs.length := by
  simpa using congrArg List.length rep.stored

theorem storedEntry {a : Addr} {k d : Int} (stored : cache.stored a = entryOf (k,d)) :
    ∃ e, cache.heap a = some e ∧ e.key = k ∧ e.data = d ∧ e.hashListPrev = none ∧ e.hashListNext = none := by
  obtain ⟨e,found,rest⟩ := Option.map_eq_some_iff.mp stored
  simp only [CacheEntry.rest,Prod.mk.injEq] at rest
  exact ⟨e,found,rest⟩

theorem Represents.cell (rep : Represents limit cache cells pairs) {a : Addr} (member : a ∈ cells) :
    ∃ k d, cache.stored a = entryOf (k,d) := by
  have shown : cache.stored a ∈ pairs.map entryOf := rep.stored ▸ List.mem_map_of_mem member
  obtain ⟨⟨k,d⟩,_,same⟩ := List.mem_map.mp shown
  exact ⟨k,d,same.symm⟩

theorem Represents.split (rep : Represents limit cache cells pairs) {k : Int} {a : Addr}
    (hit : cache.hashMap k = some a) :
    ∃ front back d before after, cells = front ++ a :: back ∧ pairs = before ++ (k,d) :: after ∧
      front.map cache.stored = before.map entryOf ∧ cache.stored a = entryOf (k,d) ∧
      back.map cache.stored = after.map entryOf := by
  obtain ⟨member,d,stored⟩ := (rep.table k a).mp hit
  obtain ⟨front,back,rfl⟩ := List.append_of_mem member
  have same := rep.stored
  rw [List.map_append,List.map_cons,stored] at same
  obtain ⟨before,tail,rfl,left,right⟩ := List.map_eq_append_iff.mp same.symm
  obtain ⟨p,after,rfl,own,right⟩ := List.map_eq_cons_iff.mp right
  have pair : p = (k,d) := by simpa [entryOf,Prod.ext_iff] using own
  exact ⟨front,back,d,before,after,rfl,by rw [pair],left.symm,stored,right.symm⟩

theorem Represents.absent (rep : Represents limit cache cells pairs) {k : Int} (missed : cache.hashMap k = none) :
    k ∉ pairs.map Prod.fst := by
  intro member
  obtain ⟨⟨k,d⟩,inside,rfl⟩ := List.mem_map.mp member
  have shown : entryOf (k,d) ∈ cells.map cache.stored := rep.stored ▸ List.mem_map_of_mem inside
  obtain ⟨a,there,stored⟩ := List.mem_map.mp shown
  have hit := (rep.table k a).mpr ⟨there,d,stored⟩
  simp [missed] at hit

/-- The table leads from the keys to the cells of the pairs. -/
theorem Represents.linked (rep : Represents limit cache cells pairs) {k : Int} {a : Addr} :
    cache.hashMap k = some a ↔ ∃ d, (a,(k,d)) ∈ cells.zip pairs := by
  constructor
  · intro hit
    obtain ⟨front,back,d,before,after,rfl,rfl,left,_,_⟩ := rep.split hit
    have same : front.length = before.length := by simpa using congrArg List.length left
    exact ⟨d,by rw [List.zip_append same]; simp⟩
  · rintro ⟨d,member⟩
    obtain ⟨i,below,here⟩ := List.mem_iff_getElem.mp member
    rw [List.getElem_zip,Prod.mk.injEq] at here
    obtain ⟨rfl,pair⟩ := here
    rw [List.length_zip] at below
    have same := congrArg (·[i]?) rep.stored
    simp only [List.getElem?_map,List.getElem?_eq_getElem (show i < cells.length by omega),
      List.getElem?_eq_getElem (show i < pairs.length by omega),Option.map_some,Option.some_inj,pair] at same
    exact (rep.table k _).mpr ⟨List.getElem_mem _,d,same⟩

/-- The cell of a key is the same as long as the key stays, and is freed when it goes. -/
def Tracks (cache after : LRUCache) (keys : List Int) : Prop :=
  ∀ k a, cache.hashMap k = some a → if k ∈ keys then after.hashMap k = some a else after.heap a = none

theorem Represents.lookup (rep : Represents limit cache cells pairs) {fuel : Nat} (enough : 1 ≤ fuel) (key : Int) :
    getValueFromHashMap fuel cache key = some (cache.hashMap key) := by
  obtain ⟨fuel,rfl⟩ : ∃ n, fuel = n + 1 := ⟨fuel - 1,by omega⟩
  cases hit : cache.hashMap key with
  | none => simp [getValueFromHashMap,hit,chainWalk]
  | some a =>
    obtain ⟨_,d,stored⟩ := (rep.table key a).mp hit
    obtain ⟨e,found,own,_⟩ := storedEntry stored
    simp [getValueFromHashMap,hit,chainWalk,found,own]

theorem Kept.stored {after : LRUCache} (kept : Kept cache after) : after.stored = cache.stored :=
  funext kept.rest

theorem Represents.touched (rep : Represents limit cache cells pairs) {front back : List Addr} {a : Addr}
    {before more : List (Int × Int)} {k d : Int} {after : LRUCache} (atCells : cells = front ++ a :: back)
    (atPairs : pairs = before ++ (k,d) :: more) (left : front.map cache.stored = before.map entryOf)
    (stored : cache.stored a = entryOf (k,d)) (right : back.map cache.stored = more.map entryOf)
    (listed : Listed after (a :: (front ++ back))) (kept : Kept cache after)
    (size : after.lruListSize = cache.lruListSize) :
    Represents limit after (a :: (front ++ back)) ((k,d) :: (before ++ more)) := by
  subst atCells atPairs
  refine ⟨listed,?_,frontDistinct rep.distinct,?_,?_,?_,kept.capacity.trans rep.capacity⟩
  · rw [kept.stored,List.map_cons,List.map_cons,List.map_append,List.map_append,left,right,stored]
  · intro key c
    rw [kept.hashMap,kept.stored,rep.table]
    simp only [List.mem_append,List.mem_cons,or_left_comm]
  · rw [size,rep.size]
    simp only [List.length_append,List.length_cons]
    omega
  · rw [size,kept.capacity]
    exact rep.bounded

theorem updateRepresents (rep : Represents limit cache cells pairs) {k : Int} {a : Addr}
    (hit : cache.hashMap k = some a) :
    ∃ after d more, updateLRUList cache a = some after ∧ cache.stored a = entryOf (k,d) ∧
      after.stored a = entryOf (k,d) ∧ Represents limit after more (recencyGet k pairs) ∧
      recencyFind k pairs = some (k,d) ∧ after.hashMap = cache.hashMap := by
  obtain ⟨front,back,d,before,behind,rfl,rfl,left,stored,right⟩ := rep.split hit
  have filled : cache.lruListSize ≠ 0 := by
    have size := rep.size
    simp only [List.length_append,List.length_cons] at size
    omega
  obtain ⟨after,done,listed,kept,size⟩ := updateSpec rep.listed filled rep.bounded
  refine ⟨after,d,a :: (front ++ back),done,stored,?_,?_,findSplit rep.distinct,kept.hashMap⟩
  · rw [kept.stored,stored]
  · rw [getHit rep.distinct]
    exact rep.touched rfl rfl left stored right listed kept size

theorem dataWrite {front back : List Addr} {a : Addr} {before more : List (Int × Int)} {k d : Int} {e : CacheEntry}
    (rep : Represents limit cache (front ++ a :: back) (before ++ (k,d) :: more)) (found : cache.heap a = some e)
    (left : front.map cache.stored = before.map entryOf) (stored : cache.stored a = entryOf (k,d))
    (right : back.map cache.stored = more.map entryOf) (data : Int) :
    Represents limit (cache.write a { e with data := data }) (front ++ a :: back) (before ++ (k,data) :: more) := by
  obtain ⟨inFront,inBack,apart⟩ := List.nodup_append.mp rep.listed.distinct
  have beside : ∀ b, b ≠ a → (cache.write a { e with data := data }).stored b = cache.stored b := fun b other =>
    congrArg (Option.map CacheEntry.rest) (writeFrame cache _ other)
  have own : (cache.write a { e with data := data }).stored a = entryOf (k,data) := by
    rw [LRUCache.stored,found] at stored
    simp only [CacheEntry.rest,entryOf,Option.map_some,Option.some_inj,Prod.mk.injEq] at stored
    simp [LRUCache.stored,LRUCache.write,CacheEntry.rest,entryOf,stored]
  have links (b : Addr) : (cache.write a { e with data := data }).next b = cache.next b ∧
      (cache.write a { e with data := data }).prev b = cache.prev b := by
    rw [nextWrite,prevWrite,ite_eq_right_iff,ite_eq_right_iff]
    exact ⟨fun same => by simp [LRUCache.next,same,found],fun same => by simp [LRUCache.prev,same,found]⟩
  refine ⟨⟨chainFrame rep.listed.chain fun b _ => links b,rep.listed.distinct,rep.listed.head,rep.listed.tail,?_⟩,
    ?_,by simpa using rep.distinct,?_,rep.size,rep.bounded,rep.capacity⟩
  · intro b member
    by_cases same : b = a
    · exact ⟨_,by rw [same]; exact Function.update_self a _ _⟩
    · rw [writeFrame cache _ same]
      exact rep.listed.live b member
  · rw [List.map_append,List.map_cons,List.map_append,List.map_cons,own,← left,← right]
    congr 1
    · exact List.map_congr_left fun b member => beside b fun same => apart b member a List.mem_cons_self same
    · congr 1
      exact List.map_congr_left fun b member => beside b fun same => (List.nodup_cons.mp inBack).1 (same ▸ member)
  · intro key c
    refine (rep.table key c).trans (and_congr_right fun _ => ?_)
    by_cases same : c = a
    · rw [same,own,stored]
      simp [entryOf]
    · rw [beside c same]

theorem insertHash {fresh : Addr} {key data : Int} (listed : Listed cache (fresh :: cells))
    (stored : cells.map cache.stored = pairs.map entryOf) (own : cache.stored fresh = entryOf (key,data))
    (distinct : (pairs.map Prod.fst).Nodup) (absent : key ∉ pairs.map Prod.fst) (missed : cache.hashMap key = none)
    (table : ∀ k a, cache.hashMap k = some a ↔ a ∈ cells ∧ ∃ d, cache.stored a = entryOf (k,d))
    (size : cache.lruListSize = cells.length + 1) (bounded : cache.lruListSize ≤ cache.cacheCapacity)
    (capacity : cache.cacheCapacity = limit) :
    ∃ after, insertentryToHashMap cache fresh = some after ∧
      Represents limit after (fresh :: cells) ((key,data) :: pairs) ∧ after.heap = cache.heap := by
  obtain ⟨e,found,rfl,_⟩ := storedEntry own
  refine ⟨{ cache with hashMap := Function.update cache.hashMap e.key (some fresh) },?_,?_,rfl⟩
  · simp [insertentryToHashMap,found,missed]
  · refine ⟨listed.frame (fun _ _ => rfl) rfl rfl,?_,List.nodup_cons.mpr ⟨absent,distinct⟩,?_,size,bounded,capacity⟩
    · exact congrArg₂ List.cons own stored
    · intro k a
      change Function.update cache.hashMap e.key (some fresh) k = some a ↔
        a ∈ fresh :: cells ∧ ∃ d, cache.stored a = entryOf (k,d)
      by_cases same : k = e.key
      · subst same
        rw [Function.update_self,Option.some_inj]
        refine ⟨fun here => here ▸ ⟨List.mem_cons_self,data,own⟩,fun ⟨member,there⟩ => ?_⟩
        rcases List.mem_cons.mp member with rfl | member
        · rfl
        · simp [(table e.key a).mpr ⟨member,there⟩] at missed
      · rw [Function.update_of_ne same,table]
        refine ⟨fun ⟨member,there⟩ => ⟨List.mem_cons_of_mem _ member,there⟩,fun ⟨member,d,there⟩ => ⟨?_,d,there⟩⟩
        rcases List.mem_cons.mp member with rfl | member
        · rw [own] at there
          simp only [entryOf,Option.some_inj,Prod.mk.injEq] at there
          exact absurd there.1.symm same
        · exact member

section Miss

variable {key : Int} {fresh : Addr} {fuel : Nat}

theorem Represents.allocate (rep : Represents limit cache cells pairs)
    (unused : cache.heap fresh = none) (key data : Int) :
    fresh ∉ cells ∧ Listed (cache.write fresh (newCacheEntry key data)) cells ∧
      (∀ a ∈ cells, (cache.write fresh (newCacheEntry key data)).stored a = cache.stored a) ∧
      (cache.write fresh (newCacheEntry key data)).stored fresh = entryOf (key,data) := by
  have outside : fresh ∉ cells := by
    intro member
    obtain ⟨e,found⟩ := rep.listed.live fresh member
    simp [unused] at found
  have same : ∀ a ∈ cells, (cache.write fresh (newCacheEntry key data)).heap a = cache.heap a :=
    fun a member => writeFrame cache _ fun here => outside (here ▸ member)
  refine ⟨outside,rep.listed.frame same rfl rfl,fun a member => congrArg _ (same a member),?_⟩
  simp [LRUCache.stored,LRUCache.write,newCacheEntry,CacheEntry.rest,entryOf]

theorem missRoom (data : Int) (rep : Represents limit cache cells pairs) (missed : cache.hashMap key = none)
    (unused : cache.heap fresh = none) (room : cache.lruListSize + 1 ≤ cache.cacheCapacity) :
    ∃ linked after, insertToListHead (cache.write fresh (newCacheEntry key data)) fresh = some (linked,none) ∧
      insertentryToHashMap linked fresh = some after ∧ Represents limit after (fresh :: cells)
        ((key,data) :: pairs) := by
  obtain ⟨outside,listed,same,own⟩ := rep.allocate unused key data
  obtain ⟨linked,pushed,listedLinked,kept,size⟩ := pushRoom listed room outside (Function.update_self fresh _ _)
    fun _ => ⟨rfl,rfl⟩
  have stored : cells.map linked.stored = pairs.map entryOf := by
    rw [← rep.stored,kept.stored]
    exact List.map_congr_left same
  have table (k : Int) (a : Addr) : linked.hashMap k = some a ↔ a ∈ cells ∧ ∃ d, linked.stored a = entryOf (k,d) := by
    rw [kept.hashMap,kept.stored]
    refine (rep.table k a).trans (and_congr_right fun member => ?_)
    rw [← same a member]
  have grown : linked.lruListSize = cells.length + 1 := size.trans (congrArg (· + 1) rep.size)
  have bounded : linked.lruListSize ≤ linked.cacheCapacity := by
    rw [size,kept.capacity]
    exact room
  obtain ⟨after,inserted,final,_⟩ := insertHash listedLinked stored (kept.stored ▸ own) rep.distinct (rep.absent missed)
    ((congrFun kept.hashMap key).trans missed) table grown bounded (kept.capacity.trans rep.capacity)
  exact ⟨linked,after,pushed,inserted,final⟩

theorem removeHash {cache : LRUCache} {t : Addr} {k d : Int} (hit : cache.hashMap k = some t)
    (stored : cache.stored t = entryOf (k,d)) (enough : 1 ≤ fuel) :
    removeEntryFromHashMap fuel cache t = some { cache with hashMap := Function.update cache.hashMap k none } := by
  obtain ⟨fuel,rfl⟩ : ∃ n, fuel = n + 1 := ⟨fuel - 1,by omega⟩
  obtain ⟨e,found,rfl,_,before,behind⟩ := storedEntry stored
  simp [removeEntryFromHashMap,found,hit,chainWalk,before,behind]

theorem evictTable {cache : LRUCache} {front : List Addr} {t : Addr} {kt dt : Int} (distinct : (front ++ [t]).Nodup)
    (table : ∀ k a, cache.hashMap k = some a ↔ a ∈ front ++ [t] ∧ ∃ d, cache.stored a = entryOf (k,d))
    (stored : cache.stored t = entryOf (kt,dt)) (k : Int) (a : Addr) :
    Function.update cache.hashMap kt none k = some a ↔ a ∈ front ∧ ∃ d, cache.stored a = entryOf (k,d) := by
  obtain ⟨_,_,apart⟩ := List.nodup_append.mp distinct
  by_cases same : k = kt
  · subst same
    rw [Function.update_self]
    refine ⟨nofun,fun ⟨member,there⟩ => ?_⟩
    have left := (table k a).mpr ⟨List.mem_append_left _ member,there⟩
    have right := (table k t).mpr ⟨by simp,dt,stored⟩
    exact absurd (Option.some.inj (left.symm.trans right)) (apart a member t List.mem_cons_self)
  · rw [Function.update_of_ne same,table]
    refine ⟨fun ⟨member,d,there⟩ => ⟨?_,d,there⟩,fun ⟨member,there⟩ => ⟨List.mem_append_left _ member,there⟩⟩
    rcases List.mem_append.mp member with member | member
    · exact member
    · obtain rfl := List.mem_singleton.mp member
      rw [stored] at there
      simp only [entryOf,Option.some_inj,Prod.mk.injEq] at there
      exact absurd there.1.symm same

theorem missFull (data : Int) (rep : Represents limit cache cells pairs) (missed : cache.hashMap key = none)
    (unused : cache.heap fresh = none) (filled : 1 ≤ cache.lruListSize)
    (full : cache.lruListSize + 1 > cache.cacheCapacity) (enough : 1 ≤ fuel) :
    ∃ linked removed cut after,
      insertToListHead (cache.write fresh (newCacheEntry key data)) fresh = some (linked,some removed) ∧
      removeEntryFromHashMap fuel linked removed = some cut ∧
      insertentryToHashMap (freeCacheEntry cut removed) fresh = some after ∧
      Represents limit after (fresh :: cells.dropLast) ((key,data) :: pairs.dropLast) ∧
      cells.getLast? = some removed ∧ after.heap removed = none := by
  obtain ⟨outside,listed,same,own⟩ := rep.allocate unused key data
  rcases List.eq_nil_or_concat' cells with rfl | ⟨front,t,rfl⟩
  · have size := rep.size
    simp only [List.length_nil] at size
    omega
  have split := rep.stored
  rw [List.map_append] at split
  obtain ⟨before,more,rfl,left,right⟩ := List.map_eq_append_iff.mp split.symm
  obtain ⟨⟨kt,dt⟩,rest,rfl,last,alone⟩ := List.map_eq_cons_iff.mp right
  obtain rfl := List.map_eq_nil_iff.mp alone
  obtain ⟨linked,pushed,listedLinked,kept,size⟩ := pushFull listed full (by
    change cache.lruListSize + 1 ≠ 0
    omega) outside (Function.update_self fresh _ _) ⟨rfl,rfl⟩
  have table (k : Int) (a : Addr) :
      linked.hashMap k = some a ↔ a ∈ front ++ [t] ∧ ∃ d, linked.stored a = entryOf (k,d) := by
    rw [kept.hashMap,kept.stored]
    refine (rep.table k a).trans (and_congr_right fun member => ?_)
    rw [← same a member]
  have storedLast : linked.stored t = entryOf (kt,dt) := by
    rw [kept.stored,last]
    exact same t (by simp)
  have hit : linked.hashMap kt = some t := (table kt t).mpr ⟨by simp,dt,storedLast⟩
  let mid := freeCacheEntry { linked with hashMap := Function.update linked.hashMap kt none } t
  have notLast : t ∉ fresh :: front := by
    intro member
    rcases List.mem_cons.mp member with rfl | member
    · exact outside (by simp)
    · exact (List.nodup_append.mp rep.listed.distinct).2.2 t member t List.mem_cons_self rfl
  have still (a : Addr) (member : a ∈ fresh :: front) : mid.heap a = linked.heap a :=
    Function.update_of_ne (fun here : a = t => notLast (here ▸ member)) _ _
  have storedMid (a : Addr) (member : a ∈ fresh :: front) : mid.stored a = linked.stored a :=
    congrArg _ (still a member)
  have storedFront : front.map mid.stored = before.map entryOf := by
    rw [left]
    refine List.map_congr_left fun a member => (storedMid a (List.mem_cons_of_mem _ member)).trans ?_
    rw [kept.stored,same a (List.mem_append_left _ member)]
  have tableMid (k : Int) (a : Addr) : mid.hashMap k = some a ↔ a ∈ front ∧ ∃ d, mid.stored a = entryOf (k,d) := by
    refine (evictTable rep.listed.distinct table storedLast k a).trans (and_congr_right fun member => ?_)
    rw [storedMid a (List.mem_cons_of_mem _ member)]
  have absent := rep.absent missed
  rw [List.map_append,List.mem_append,not_or] at absent
  have missedMid : mid.hashMap key = none := by
    have other : key ≠ kt := fun here => absent.2 (by simp [here])
    exact (Function.update_of_ne other _ _).trans ((congrFun kept.hashMap key).trans missed)
  have distinct : (before.map Prod.fst).Nodup := rep.distinct.sublist (by simp)
  have sizeMid : mid.lruListSize = front.length + 1 := by
    refine size.trans (rep.size.trans ?_)
    simp
  have boundedMid : mid.lruListSize ≤ mid.cacheCapacity := by
    change linked.lruListSize ≤ linked.cacheCapacity
    rw [size,kept.capacity]
    exact rep.bounded
  have ownMid : mid.stored fresh = entryOf (key,data) := by
    rw [storedMid fresh List.mem_cons_self,kept.stored,own]
  obtain ⟨after,inserted,final,heap⟩ := insertHash (listedLinked.frame still rfl rfl) storedFront ownMid distinct
    absent.1 missedMid tableMid sizeMid boundedMid (kept.capacity.trans rep.capacity)
  refine ⟨linked,t,_,after,pushed,removeHash hit storedLast enough,inserted,?_,List.getLast?_concat,?_⟩
  · rw [List.dropLast_concat,List.dropLast_concat]
    exact final
  · rw [heap]
    exact Function.update_self t _ _

end Miss

inductive CacheOp where
  | set (key data : Int) (fresh : Addr)
  | get (key : Int)

/-- A new entry gets memory that is not in use. -/
def Possible (cache : LRUCache) : CacheOp → Prop
  | .set _ _ fresh => cache.heap fresh = none
  | .get _ => True

def cacheStep (fuel : Nat) (cache : LRUCache) : CacheOp → Option LRUCache
  | .set key data fresh => if (cache.heap fresh).isSome then none else LRUCacheSet fuel cache key data fresh
  | .get key => (LRUCacheGet fuel cache key).map Prod.fst

def recencyStep (capacity : Int) : CacheOp → List (Int × Int) → List (Int × Int)
  | .set key data _ => recencySet capacity.toNat key data
  | .get key => recencyGet key

def recencyRun (capacity : Int) (past : List CacheOp) : List (Int × Int) := past.foldr (recencyStep capacity) []

section Refinement

variable {fuel : Nat} {key data : Int} {fresh : Addr}

theorem setStored (rep : Represents limit cache cells pairs) (enough : 1 ≤ fuel) {a : Addr}
    (hit : cache.hashMap key = some a) (capacity : Nat) :
    ∃ after more, LRUCacheSet fuel cache key data fresh = some after ∧
      Represents limit after more (recencySet capacity key data pairs) ∧
      Tracks cache after ((recencySet capacity key data pairs).map Prod.fst) := by
  obtain ⟨front,back,d,before,behind,rfl,rfl,left,stored,right⟩ := rep.split hit
  obtain ⟨e,found,_⟩ := storedEntry stored
  have wrote := dataWrite rep found left stored right data
  obtain ⟨after,_,more,done,_,_,final,_,table⟩ := updateRepresents wrote hit
  rw [getHit wrote.distinct] at final
  rw [setHit capacity data rep.distinct]
  refine ⟨after,more,?_,final,fun k b here => ?_⟩
  · simp only [LRUCacheSet,rep.lookup enough,hit,bind,Option.bind_some,storeWrite found]
    exact done
  · have still : after.hashMap k = some b := (congrFun table k).trans here
    obtain ⟨_,member⟩ := final.linked.mp still
    rw [if_pos (List.mem_map_of_mem (f := Prod.fst) (List.of_mem_zip member).2)]
    exact still

/-- The entry that makes room is the last one. -/
theorem tracksFull {after : LRUCache} {removed : Addr} (rep : Represents limit cache cells pairs)
    (final : Represents limit after (fresh :: cells.dropLast) ((key,data) :: pairs.dropLast))
    (last : cells.getLast? = some removed) (freed : after.heap removed = none) (absent : key ∉ pairs.map Prod.fst) :
    Tracks cache after (((key,data) :: pairs.dropLast).map Prod.fst) := by
  intro k a hit
  obtain ⟨d,member⟩ := rep.linked.mp hit
  obtain ⟨front,rfl⟩ := List.getLast?_eq_some_iff.mp last
  have length := rep.length
  rcases List.eq_nil_or_concat' pairs with rfl | ⟨before,p,rfl⟩
  · simp at length
  have same : front.length = before.length := by simpa using length
  have own : k ∈ (before ++ [p]).map Prod.fst := List.mem_map_of_mem (f := Prod.fst) (List.of_mem_zip member).2
  have other : k ≠ key := fun here => absent (here ▸ own)
  have apart := List.nodup_append.mp (List.map_append ▸ rep.distinct)
  rw [List.zip_append same,List.mem_append] at member
  simp only [List.dropLast_concat] at final ⊢
  rcases member with member | member
  · have inside : k ∈ ((key,data) :: before).map Prod.fst :=
      List.mem_cons_of_mem _ (List.mem_map_of_mem (f := Prod.fst) (List.of_mem_zip member).2)
    rw [if_pos inside]
    exact final.linked.mpr ⟨d,List.mem_cons_of_mem _ member⟩
  · obtain ⟨rfl,rfl⟩ : a = removed ∧ (k,d) = p := by simpa using member
    have gone : k ∉ ((key,data) :: before).map Prod.fst := by
      rw [List.map_cons,List.mem_cons,not_or]
      exact ⟨other,fun inside => apart.2.2 k inside k (by simp) rfl⟩
    rw [if_neg gone]
    exact freed

theorem setMissed (rep : Represents limit cache cells pairs) (room : 1 ≤ limit) (enough : 1 ≤ fuel)
    (missed : cache.hashMap key = none) (unused : cache.heap fresh = none) :
    ∃ after more, LRUCacheSet fuel cache key data fresh = some after ∧
      Represents limit after more (recencySet limit.toNat key data pairs) ∧
      Tracks cache after ((recencySet limit.toNat key data pairs).map Prod.fst) := by
  have size := rep.size
  have length := rep.length
  have bounded := rep.bounded
  have capacity := rep.capacity
  rw [recencySet,if_neg (rep.absent missed)]
  by_cases full : cache.lruListSize + 1 > cache.cacheCapacity
  · obtain ⟨linked,removed,cut,after,pushed,removedHash,inserted,final,last,freed⟩ :=
      missFull data rep missed unused (by omega) full enough
    rw [if_neg (by omega)]
    refine ⟨after,fresh :: cells.dropLast,?_,final,tracksFull rep final last freed (rep.absent missed)⟩
    simp only [LRUCacheSet,rep.lookup enough,missed,bind,Option.bind_some,pushed,removedHash,Option.map_some]
    exact inserted
  · obtain ⟨linked,after,pushed,inserted,final⟩ := missRoom data rep missed unused (by omega)
    rw [if_pos (by omega)]
    refine ⟨after,fresh :: cells,?_,final,fun k a here => ?_⟩
    · simp only [LRUCacheSet,rep.lookup enough,missed,bind,Option.bind_some,pushed]
      exact inserted
    · obtain ⟨d,member⟩ := rep.linked.mp here
      have inside : k ∈ ((key,data) :: pairs).map Prod.fst :=
        List.mem_cons_of_mem _ (List.mem_map_of_mem (f := Prod.fst) (List.of_mem_zip member).2)
      rw [if_pos inside]
      exact final.linked.mpr ⟨d,List.mem_cons_of_mem _ member⟩

theorem setRepresents (rep : Represents limit cache cells pairs) (room : 1 ≤ limit) (enough : 1 ≤ fuel)
    (unused : cache.heap fresh = none) :
    ∃ after more, LRUCacheSet fuel cache key data fresh = some after ∧
      Represents limit after more (recencySet limit.toNat key data pairs) ∧
      Tracks cache after ((recencySet limit.toNat key data pairs).map Prod.fst) := by
  cases hit : cache.hashMap key with
  | none => exact setMissed rep room enough hit unused
  | some a => exact setStored rep enough hit _

theorem getSpec (rep : Represents limit cache cells pairs) (enough : 1 ≤ fuel) (key : Int) :
    ∃ after more, LRUCacheGet fuel cache key = some (after,((recencyFind key pairs).map Prod.snd).getD 0) ∧
      Represents limit after more (recencyGet key pairs) := by
  cases hit : cache.hashMap key with
  | none =>
    have absent := rep.absent hit
    refine ⟨cache,cells,?_,(getMiss absent).symm ▸ rep⟩
    simp only [LRUCacheGet,rep.lookup enough,hit,bind,Option.bind_some,findMiss absent]
    rfl
  | some a =>
    obtain ⟨after,d,more,done,_,stored,final,found,_⟩ := updateRepresents rep hit
    obtain ⟨e,there,_,data,_⟩ := storedEntry stored
    refine ⟨after,more,?_,final⟩
    simp only [LRUCacheGet,rep.lookup enough,hit,bind,Option.bind_some,done,there,data,found,Option.map_some,
      Option.getD_some]

theorem stepRepresents (rep : Represents limit cache cells pairs) (room : 1 ≤ limit) (enough : 1 ≤ fuel)
    {op : CacheOp} (possible : Possible cache op) :
    ∃ after more, cacheStep fuel cache op = some after ∧ Represents limit after more (recencyStep limit op pairs) := by
  cases op with
  | set key data fresh =>
    have guard : ¬ (cache.heap fresh).isSome = true := by simp [show cache.heap fresh = none from possible]
    simp only [cacheStep,if_neg guard]
    obtain ⟨after,more,done,final,_⟩ := setRepresents rep room enough possible
    exact ⟨after,more,done,final⟩
  | get key =>
    obtain ⟨after,more,done,final⟩ := getSpec rep enough key
    exact ⟨after,more,by simp only [cacheStep,done,Option.map_some],final⟩

theorem createRepresents (room : 1 ≤ limit) : Represents limit (LRUCacheCreate limit) [] [] :=
  ⟨⟨trivial,List.nodup_nil,rfl,rfl,nofun⟩,rfl,List.nodup_nil,fun k a => by simp [LRUCacheCreate],rfl,
    Int.le_trans Int.one_nonneg room,rfl⟩

theorem takenPossible {op : CacheOp} {after : LRUCache} (taken : cacheStep fuel cache op = some after) :
    Possible cache op := by
  cases op with
  | set key data fresh =>
    cases unused : cache.heap fresh with
    | none => exact unused
    | some e => simp [cacheStep,unused] at taken
  | get key => trivial

theorem runRepresents (room : 1 ≤ limit) (enough : 1 ≤ fuel) {past : List CacheOp} {cache : LRUCache}
    (run : Reach (Takes (cacheStep fuel)) (LRUCacheCreate limit) past cache) :
    ∃ cells, Represents limit cache cells (recencyRun limit past) := by
  induction run with
  | start => exact ⟨[],createRepresents room⟩
  | next _ taken ih =>
    obtain ⟨cells,rep⟩ := ih
    obtain ⟨after,more,done,final⟩ := stepRepresents rep room enough (takenPossible taken)
    obtain rfl := Option.some.inj (done.symm.trans taken)
    exact ⟨more,final⟩

end Refinement

/-- What a reader of the memory finds: the cells in order from both ends, each with the
pair the list asks for, and the same cells through the table. -/
structure Shows (fuel : Nat) (cache : LRUCache) (cells : List Addr) (pairs : List (Int × Int)) : Prop where
  forward : ∀ n, cells.length ≤ n → follow cache.next n cache.lruListHead = cells
  backward : ∀ n, cells.length ≤ n → follow cache.prev n cache.lruListTail = cells.reverse
  head : cache.lruListHead = cells.head?
  tail : cache.lruListTail = cells.getLast?
  pairs : cells.map (fun a => (cache.heap a).map fun e => (e.key,e.data)) = pairs.map some
  size : cache.lruListSize = cells.length
  found : ∀ key a, getValueFromHashMap fuel cache key = some (some a) ↔
    a ∈ cells ∧ (cache.heap a).map CacheEntry.key = some key
  looked : ∀ key, (getValueFromHashMap fuel cache key).isSome = true

theorem Represents.shows (rep : Represents limit cache cells pairs) {fuel : Nat} (enough : 1 ≤ fuel) :
    Shows fuel cache cells pairs := by
  refine ⟨fun n long => ?_,fun n long => ?_,rep.listed.head,rep.listed.tail,?_,rep.size,fun key a => ?_,fun key => ?_⟩
  · rw [rep.listed.head]
    exact followNext rep.listed.chain long
  · rw [rep.listed.tail]
    exact followPrev rep.listed.chain long
  · have same := congrArg (List.map (Option.map fun r => (r.1,r.2.1))) rep.stored
    simpa [LRUCache.stored,entryOf,CacheEntry.rest,Function.comp_def] using same
  · rw [rep.lookup enough,Option.some_inj,rep.table]
    refine and_congr_right fun member => ⟨fun ⟨d,stored⟩ => ?_,fun own => ?_⟩
    · obtain ⟨e,found,same,_⟩ := storedEntry stored
      rw [found,Option.map_some,same]
    · obtain ⟨k,d,stored⟩ := rep.cell member
      obtain ⟨e,found,same,_⟩ := storedEntry stored
      rw [found,Option.map_some,same,Option.some_inj] at own
      exact ⟨d,own ▸ stored⟩
  · rw [rep.lookup enough]
    rfl

theorem Represents.unique (rep : Represents limit cache cells pairs) {others : List Addr} {more : List (Int × Int)}
    (again : Represents limit cache others more) : more = pairs := by
  have same : others = cells := by
    let n := cells.length + others.length
    calc others = follow cache.next n cache.lruListHead :=
          (again.listed.head ▸ followNext again.listed.chain (Nat.le_add_left _ _)).symm
      _ = cells := rep.listed.head ▸ followNext rep.listed.chain (Nat.le_add_right _ _)
  have stored := again.stored.symm.trans (same ▸ rep.stored)
  refine List.map_injective_iff.mpr (fun p q own => ?_) stored
  simpa [entryOf,Prod.ext_iff] using own

/-- The pointer structure is a bounded recency list, whatever calls were made. -/
theorem cacheRefines {capacity : Int} {fuel : Nat} (room : 1 ≤ capacity) (enough : 1 ≤ fuel) {past : List CacheOp}
    {cache : LRUCache} (run : Reach (Takes (cacheStep fuel)) (LRUCacheCreate capacity) past cache) :
    (∃ cells, Shows fuel cache cells (recencyRun capacity past)) ∧
      ((recencyRun capacity past).map Prod.fst).Nodup ∧ cache.lruListSize ≤ capacity ∧
      (∀ op, Possible cache op → ∃ after, cacheStep fuel cache op = some after) ∧
      ∀ key, (LRUCacheGet fuel cache key).map Prod.snd =
        some (((recencyFind key (recencyRun capacity past)).map Prod.snd).getD 0) := by
  obtain ⟨cells,rep⟩ := runRepresents room enough run
  refine ⟨⟨cells,rep.shows enough⟩,rep.distinct,rep.capacity ▸ rep.bounded,fun op possible => ?_,fun key => ?_⟩
  · obtain ⟨after,_,done,_⟩ := stepRepresents rep room enough possible
    exact ⟨after,done⟩
  · obtain ⟨after,_,done,_⟩ := getSpec rep enough key
    rw [done,Option.map_some]

def shownCalls : List CacheOp := [.set 5 1 0,.set 7 2 1,.get 5,.set 9 3 2,.get 7]

theorem cacheRefinesShown : ∃ cache, Reach (Takes (cacheStep 1)) (LRUCacheCreate 2) shownCalls.reverse cache ∧
    (∃ cells, Shows 1 cache cells [(9,3),(5,1)]) ∧ cache.lruListSize ≤ 2 := by
  have runs : (replay (cacheStep 1) (LRUCacheCreate 2) shownCalls).isSome = true := by decide
  have run := replayReach (Option.some_get runs).symm
  obtain ⟨shows,_,bounded,_⟩ := cacheRefines (by decide) (by decide) run
  exact ⟨_,run,shows,bounded⟩

end HpuCache.LruCache
