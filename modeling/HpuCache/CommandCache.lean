import HpuCache.KeyedDict
import HpuCache.KeySlot

/-! The cache of write commands that a hot slot keeps for its group, and the
flush that sends it. The size counter grows at every addition and shrinks at
every entry sent, so it is not the number of entries; it is never below it. -/
namespace HpuCache.CommandCache
open ByteText KeyedDict

/-- A node of the cluster. Its name and the pointer to it are one here: the
group tables keep, under a name, the node of that name. -/
abbrev NodeId := Nat

/-- `homie` and the terminating zero that `argv_len[0]` counts. -/
def magicWord : Bytes := [104,111,109,105,101,0]

/-- A cached command: header, stamp, command word and at least one argument. -/
structure CacheOps where
  argv : List Bytes
  filled : 4 ≤ argv.length
  deriving DecidableEq

def CacheOps.key (op : CacheOps) : Bytes := op.argv.get ⟨3,op.filled⟩
def CacheOps.stamp (op : CacheOps) : Bytes := op.argv.get ⟨1,Nat.lt_of_lt_of_le (by decide) op.filled⟩

/-- The entry that `addCmdToCache` builds. Every argument is copied up to its
first zero byte. Without a first argument the key would be read past the vector. -/
def cacheOps (now : Ustime) (argv : List Bytes) : Option CacheOps :=
  if h : 2 ≤ argv.length then
    some ⟨magicWord :: now.text :: argv.map cstr,by simp; omega⟩
  else none

abbrev OpDict := Dict CacheOps.key
abbrev Roster := Dict (id : NodeId → NodeId)

structure SlotState where
  dealedOps : Nat
  haveCopy : Bool
  isCopying : Bool
  isCopied : Bool
  isSynced : Bool
  cachedOp : OpDict
  relatedIns : Roster
  -- An int in the source; the counts here do not wrap.
  cacheOpSize : Int

def SlotState.zeroed : SlotState := ⟨0,false,false,false,false,.empty,.empty,0⟩

def addCmdToCache (now : Ustime) (argv : List Bytes) (st : SlotState) : Option SlotState := do
  let op ← cacheOps now argv
  some { st with cachedOp := st.cachedOp.replace op, cacheOpSize := st.cacheOpSize + 1 }

structure Send where
  node : NodeId
  op : CacheOps
  deriving DecidableEq

def sendToRelated (myself : NodeId) (op : CacheOps) : List NodeId → List Send
  | [] => []
  | node :: rest =>
    if node = myself then sendToRelated myself op rest
    else ⟨node,op⟩ :: sendToRelated myself op rest

def broadcastLoop (myself : NodeId) : List CacheOps → SlotState → SlotState × List Send
  | [], st => (st,[])
  | op :: rest, st =>
    if st.cacheOpSize ≤ 0 then (st,[]) else
      let fired := sendToRelated myself op st.relatedIns.entries
      let next := { st with cachedOp := st.cachedOp.delete op.key, cacheOpSize := st.cacheOpSize - 1 }
      let (last,more) := broadcastLoop myself rest next
      (last,fired ++ more)

def broadcastCommandInHotGroup (order : IterOrder CacheOps) (myself : NodeId) (st : SlotState) :
    SlotState × List Send :=
  broadcastLoop myself (order.arrange st.cachedOp.entries) st

def sentTo (node : NodeId) (sends : List Send) : List CacheOps :=
  (sends.filter (fun s => s.node = node)).map Send.op

/-- The size test never stops a flush before its last entry. -/
def Bounded (st : SlotState) : Prop := (st.cachedOp.size : Int) ≤ st.cacheOpSize

theorem cacheOpsShape {now argv op} (h : cacheOps now argv = some op) :
    2 ≤ argv.length ∧ op.argv = magicWord :: now.text :: argv.map cstr := by
  unfold cacheOps at h
  split at h <;> try contradiction
  cases Option.some.inj h
  exact ⟨by assumption,rfl⟩

theorem cacheOpsOf (now : Ustime) {argv : List Bytes} (long : 2 ≤ argv.length) :
    ∃ op, cacheOps now argv = some op := by
  simp only [cacheOps,dif_pos long]
  exact ⟨_,rfl⟩

theorem cacheOpsKey {now : Ustime} {word key : Bytes} {rest op}
    (h : cacheOps now (word :: key :: rest) = some op) : op.key = cstr key := by
  obtain ⟨argv,filled⟩ := op
  obtain rfl : argv = _ := (cacheOpsShape h).2
  rfl

theorem cacheOpsVerbatim {now argv op} (h : cacheOps now argv = some op)
    (free : ∀ a ∈ argv, ZeroFree a) : op.argv = magicWord :: now.text :: argv := by
  rw [(cacheOpsShape h).2,mapCstr free]

theorem addedEntry {now argv st st'} (h : addCmdToCache now argv st = some st') :
    ∃ op, cacheOps now argv = some op ∧
      st' = { st with cachedOp := st.cachedOp.replace op, cacheOpSize := st.cacheOpSize + 1 } := by
  simp only [addCmdToCache,bind,Option.bind_eq_some_iff] at h
  obtain ⟨op,built,last⟩ := h
  exact ⟨op,built,(Option.some.inj last).symm⟩

theorem sendToRelatedMem {myself op members s} :
    s ∈ sendToRelated myself op members ↔ s.op = op ∧ s.node ∈ members ∧ s.node ≠ myself := by
  induction members with
  | nil => simp [sendToRelated]
  | cons node rest ih =>
    simp only [sendToRelated]
    split
    · rename_i same
      rw [ih,List.mem_cons]
      constructor
      · rintro ⟨own,member,other⟩
        exact ⟨own,.inr member,other⟩
      · rintro ⟨own,head | member,other⟩
        · exact absurd (head.trans same) other
        · exact ⟨own,member,other⟩
    · rename_i other
      rw [List.mem_cons,ih,List.mem_cons]
      constructor
      · rintro (rfl | ⟨own,member,apart⟩)
        · exact ⟨rfl,.inl rfl,other⟩
        · exact ⟨own,.inr member,apart⟩
      · rintro ⟨own,head | member,apart⟩
        · left
          cases s
          simp only at own head
          rw [own,head]
        · exact .inr ⟨own,member,apart⟩

@[simp] theorem sentToNil (node : NodeId) : sentTo node [] = [] := rfl

@[simp] theorem sentToAppend (node : NodeId) (xs ys : List Send) :
    sentTo node (xs ++ ys) = sentTo node xs ++ sentTo node ys := by
  simp [sentTo]

theorem memSentTo {node : NodeId} {sends : List Send} {op : CacheOps} :
    op ∈ sentTo node sends ↔ ⟨node,op⟩ ∈ sends := by
  simp only [sentTo,List.mem_map,List.mem_filter,decide_eq_true_eq]
  constructor
  · rintro ⟨s,⟨member,rfl⟩,rfl⟩
    exact member
  · intro member
    exact ⟨⟨node,op⟩,⟨member,rfl⟩,rfl⟩

theorem sentToRelated {myself : NodeId} {members : List NodeId} (distinct : members.Nodup)
    (op : CacheOps) (node : NodeId) :
    sentTo node (sendToRelated myself op members) =
      if node ∈ members ∧ node ≠ myself then [op] else [] := by
  induction members with
  | nil => simp [sendToRelated]
  | cons head rest ih =>
    obtain ⟨fresh,distinct⟩ := List.nodup_cons.mp distinct
    have tail := ih distinct
    simp only [sendToRelated]
    by_cases own : head = myself
    · rw [if_pos own,tail]
      congr 1
      simp only [List.mem_cons,eq_iff_iff]
      constructor
      · exact fun h => ⟨.inr h.1,h.2⟩
      · rintro ⟨same | member,other⟩
        · exact absurd (same.trans own) other
        · exact ⟨member,other⟩
    · rw [if_neg own]
      have split : sentTo node (⟨head,op⟩ :: sendToRelated myself op rest) =
          (if head = node then [op] else []) ++ sentTo node (sendToRelated myself op rest) := by
        by_cases same : head = node <;> simp [sentTo,same]
      rw [split,tail]
      by_cases same : head = node
      · subst same
        simp [fresh,own]
      · have other : node ≠ head := fun h => same h.symm
        simp [same,other]

theorem rosterDistinct (r : Roster) : r.entries.Nodup := by simpa using r.distinct

theorem broadcastLoopFrame (myself : NodeId) (ops : List CacheOps) (st : SlotState) :
    ∃ cachedOp cacheOpSize, (broadcastLoop myself ops st).1 =
      { st with cachedOp := cachedOp, cacheOpSize := cacheOpSize } ∧
      ∀ op ∈ cachedOp.entries, op ∈ st.cachedOp.entries := by
  induction ops generalizing st with
  | nil => exact ⟨st.cachedOp,st.cacheOpSize,rfl,fun _ h => h⟩
  | cons head rest ih =>
    simp only [broadcastLoop]
    split
    · exact ⟨st.cachedOp,st.cacheOpSize,rfl,fun _ h => h⟩
    · obtain ⟨d,n,shape,kept⟩ := ih { st with
        cachedOp := st.cachedOp.delete head.key, cacheOpSize := st.cacheOpSize - 1 }
      exact ⟨d,n,shape,fun op member => (Dict.memDelete.mp (kept op member)).1⟩

theorem broadcastLoopSends {myself : NodeId} {ops : List CacheOps} {st : SlotState} {s : Send}
    (member : s ∈ (broadcastLoop myself ops st).2) :
    s.op ∈ ops ∧ s.node ∈ st.relatedIns.entries ∧ s.node ≠ myself := by
  induction ops generalizing st with
  | nil => simp [broadcastLoop] at member
  | cons head rest ih =>
    simp only [broadcastLoop] at member
    split at member
    · simp at member
    · rcases List.mem_append.mp member with now | later
      · obtain ⟨own,inside,other⟩ := sendToRelatedMem.mp now
        exact ⟨own ▸ List.mem_cons_self,inside,other⟩
      · obtain ⟨own,inside,other⟩ := ih later
        exact ⟨List.mem_cons_of_mem _ own,inside,other⟩

section broadcast
variable (order : IterOrder CacheOps) (myself : NodeId) (st : SlotState)

theorem broadcastFrame :
    ∃ cachedOp cacheOpSize, (broadcastCommandInHotGroup order myself st).1 =
      { st with cachedOp := cachedOp, cacheOpSize := cacheOpSize } ∧
      ∀ op ∈ cachedOp.entries, op ∈ st.cachedOp.entries :=
  broadcastLoopFrame myself _ st

theorem broadcastRelated :
    (broadcastCommandInHotGroup order myself st).1.relatedIns = st.relatedIns := by
  obtain ⟨_,_,shape,_⟩ := broadcastFrame order myself st
  rw [shape]

theorem broadcastSends {s : Send} (member : s ∈ (broadcastCommandInHotGroup order myself st).2) :
    s.op ∈ st.cachedOp.entries ∧ s.node ∈ st.relatedIns.entries ∧ s.node ≠ myself := by
  obtain ⟨own,inside,other⟩ := broadcastLoopSends member
  exact ⟨(order.perm _).mem_iff.mp own,inside,other⟩

theorem broadcastLoopAll {ops : List CacheOps} {st : SlotState} (distinct : (ops.map CacheOps.key).Nodup)
    (same : ∀ op, op ∈ ops ↔ op ∈ st.cachedOp.entries) (bounded : Bounded st) :
    (broadcastLoop myself ops st).1 =
      { st with cachedOp := .empty, cacheOpSize := st.cacheOpSize - st.cachedOp.size } ∧
    (broadcastLoop myself ops st).2 =
      ops.flatMap (fun op => sendToRelated myself op st.relatedIns.entries) := by
  induction ops generalizing st with
  | nil =>
    have bare : st.cachedOp.entries = [] :=
      List.eq_nil_iff_forall_not_mem.mpr (fun op h => by simpa using (same op).mpr h)
    obtain ⟨dealed,haveCopy,copying,copied,synced,⟨entries,distinct⟩,related,size⟩ := st
    obtain rfl : entries = [] := bare
    exact ⟨by simp [broadcastLoop,Dict.empty,Dict.size],rfl⟩
  | cons head rest ih =>
    obtain ⟨fresh,distinct⟩ := List.nodup_cons.mp distinct
    have inside : head ∈ st.cachedOp.entries := (same head).mp List.mem_cons_self
    have shrink := Dict.sizeDelete inside
    have positive : ¬ st.cacheOpSize ≤ 0 := by
      simp only [Bounded] at bounded
      omega
    have left : ∀ op, op ∈ rest ↔ op ∈ (st.cachedOp.delete head.key).entries := by
      intro op
      rw [Dict.memDelete,← same op,List.mem_cons]
      constructor
      · exact fun h => ⟨.inr h,fun key => fresh (key ▸ List.mem_map_of_mem h)⟩
      · rintro ⟨rfl | h,other⟩
        · exact absurd rfl other
        · exact h
    have covered : Bounded { st with
        cachedOp := st.cachedOp.delete head.key, cacheOpSize := st.cacheOpSize - 1 } := by
      simp only [Bounded] at bounded ⊢
      omega
    have tail := ih distinct left covered
    simp only [broadcastLoop,if_neg positive,tail.1,tail.2,List.flatMap_cons]
    refine ⟨?_,trivial⟩
    congr 1
    omega

theorem broadcastAll (bounded : Bounded st) :
    broadcastCommandInHotGroup order myself st =
      ({ st with cachedOp := .empty, cacheOpSize := st.cacheOpSize - st.cachedOp.size },
        (order.arrange st.cachedOp.entries).flatMap
          (fun op => sendToRelated myself op st.relatedIns.entries)) := by
  have perm := order.perm st.cachedOp.entries
  have all := broadcastLoopAll myself ((perm.map _).nodup_iff.mpr st.cachedOp.distinct)
    (fun _ => perm.mem_iff) bounded
  exact Prod.ext all.1 all.2

theorem broadcastBounded (bounded : Bounded st) :
    Bounded (broadcastCommandInHotGroup order myself st).1 := by
  rw [broadcastAll order myself st bounded]
  simp only [Bounded,Dict.sizeEmpty] at bounded ⊢
  omega

theorem broadcastSentTo (bounded : Bounded st) (node : NodeId) :
    sentTo node (broadcastCommandInHotGroup order myself st).2 =
      if node ∈ st.relatedIns.entries ∧ node ≠ myself
      then order.arrange st.cachedOp.entries else [] := by
  rw [broadcastAll order myself st bounded]
  dsimp only
  generalize order.arrange st.cachedOp.entries = ops
  induction ops with
  | nil => simp
  | cons op rest ih =>
    rw [List.flatMap_cons,sentToAppend,ih,sentToRelated (rosterDistinct _)]
    split <;> simp

end broadcast
end HpuCache.CommandCache
