import HpuCache.ServerState

/-! Hot-group membership and the commands that steer a hot slot: the local
command and the packet handler are two implementations of one set update. -/
namespace HpuCache.GroupCommands
open ByteText KeySlot KeyedDict CommandCache ServerState

def clusterNodeInHotGroup (node : NodeId) (st : SlotState) : Int :=
  if st.relatedIns.has node then 0 else -1

def clusterHotGroupAddNode (node : NodeId) (st : SlotState) : Except Fault SlotState :=
  if clusterNodeInHotGroup node st = 0 then .ok st else
    match st.relatedIns.add node with
    | none => .error .panic
    | some related => .ok { st with relatedIns := related }

def clusterHotGroupDelNode (node : NodeId) (st : SlotState) : Except Fault SlotState :=
  if clusterNodeInHotGroup node st ≠ 0 then .ok st else
    match st.relatedIns.remove node with
    | none => .error .panic
    | some related => .ok { st with relatedIns := related }

/-- The packet of type CLUSTERMSG_TYPE_HG: status 1 adds the node, 2 deletes it. -/
structure HotGroupMsg where
  slot : UInt16
  status : UInt16
  nodename : NodeId
  deriving DecidableEq, Repr

def clusterBroadcastOwnAsHotInstance (myself : NodeId) (slot : Slot) (status : UInt16) : HotGroupMsg :=
  ⟨UInt16.ofNat slot.val,status,myself⟩

/-- The hot-group branch of `clusterProcessPacket` on one `slot_status` entry. -/
def hotGroupUpdate (status : UInt16) (node : NodeId) (st : SlotState) : Except Fault SlotState :=
  if status = 1 then
    let st := { st with isCopied := true }
    if st.relatedIns.has node then .ok st else
      match st.relatedIns.add node with
      | none => .error .panic
      | some related => .ok { st with relatedIns := related }
  else if status = 2 then
    if st.relatedIns.has node then
      match st.relatedIns.remove node with
      | none => .error .panic
      | some related => .ok { st with relatedIns := related }
    else .ok st
  else .ok st

/-- The name of the looked-up node is read before the lookup is checked. -/
def hotGroupPacket (nodes : List NodeId) (msg : HotGroupMsg) (cl : ClusterState) :
    Except Fault ClusterState :=
  if msg.nodename ∈ nodes then
    if h : msg.slot.toNat < 16384 then do
      let st ← hotGroupUpdate msg.status msg.nodename (cl.slotStatus ⟨msg.slot.toNat,h⟩)
      .ok (cl.setSlot ⟨msg.slot.toNat,h⟩ st)
    else if msg.status = 1 ∨ msg.status = 2 then .error .slotOutOfRange else .ok cl
  else .error .panic

structure GroupResult where
  cluster : ClusterState
  effects : List Effect
  packet : Option HotGroupMsg
  replies : List String

def textAdd : Bytes := [97,100,100]
def textDel : Bytes := [100,101,108]

def flushSlot (order : IterOrder CacheOps) (myself : NodeId) (slot : Slot) (st : SlotState) :
    SlotState × List Effect :=
  let flushed := broadcastCommandInHotGroup order myself st
  (flushed.1,[.flushed slot ⟨st.relatedIns.entries,flushed.2,flushed.1.cachedOp.entries⟩])

/-- The flush a departing member makes: only when the counter says there is something. -/
def flushIfCounted (order : IterOrder CacheOps) (myself : NodeId) (slot : Slot) (st : SlotState) :
    SlotState × List Effect :=
  if st.cacheOpSize > 0 then
    flushSlot order myself slot st
  else (st,[])

/-- CLUSTER HOTGROUP on a parsed slot argument; `none` is a text that is no slot,
for which the code replies an error and goes on with index -1. -/
def hotgroupCommand (order : IterOrder CacheOps) (word : Bytes) (slot : Option Slot)
    (cl : ClusterState) : Except Fault GroupResult :=
  let early := if slot.isNone then ["Invalid or out of range slot","error slot info"] else []
  if strcasecmpEqual word textAdd then
    match slot with
    | none => .error .slotOutOfRange
    | some slot => do
      let st ← clusterHotGroupAddNode cl.myself (cl.slotStatus slot)
      .ok ⟨cl.setSlot slot st,[],some (clusterBroadcastOwnAsHotInstance cl.myself slot 1),["OK"]⟩
  else if strcasecmpEqual word textDel then
    match slot with
    | none => .error .slotOutOfRange
    | some slot => do
      let marked := { cl.slotStatus slot with isCopied := false, isCopying := false, isSynced := false }
      let flushed := flushIfCounted order cl.myself slot marked
      let st ← clusterHotGroupDelNode cl.myself flushed.1
      .ok ⟨cl.setSlot slot st,flushed.2,some (clusterBroadcastOwnAsHotInstance cl.myself slot 2),["OK"]⟩
  else .ok ⟨cl,[],none,early ++ ["Unknow cmd"]⟩

def setslotCopying (st : SlotState) : SlotState :=
  { st with haveCopy := false, isCopying := true, isCopied := false }
def setslotFincopy (st : SlotState) : SlotState :=
  { st with isCopying := false, isCopied := true, haveCopy := true }

/-- CLUSTER SETSLOT COPYING and FINCOPY: refused on a replica, no other check. -/
def setslotCopyCommand (finished : Bool) (slot : Slot) (cl : ClusterState) : ClusterState :=
  if cl.isSlave then cl
  else if finished then cl.setSlot slot (setslotFincopy (cl.slotStatus slot))
  else cl.setSlot slot (setslotCopying (cl.slotStatus slot))

def textNo : Bytes := [110,111]
def text1s : Bytes := [49,115]
def textImmd : Bytes := [105,109,109,100]
def textAvg : Bytes := [97,118,103]
def textSkew : Bytes := [115,107,101,119]

def setForwardWay (word : Bytes) (cl : ClusterState) : ClusterState × List String :=
  if strcasecmpEqual word textAvg then ({ cl with forwardTime := false },[])
  else if strcasecmpEqual word textSkew then ({ cl with forwardTime := true },[])
  else (cl,["Invalid forward way"])

/-- CLUSTER RUNMODE: an OK follows the error replies as well. -/
def runmodeCommand (syncWay forwardWay : Bytes) (cl : ClusterState) : ClusterState × List String :=
  let chosen :=
    if strcasecmpEqual syncWay textNo then
      setForwardWay forwardWay { cl with isSync := false, syncTime := false }
    else if strcasecmpEqual syncWay text1s then
      setForwardWay forwardWay { cl with isSync := true, syncTime := true }
    else if strcasecmpEqual syncWay textImmd then
      setForwardWay forwardWay { cl with isSync := true, syncTime := false }
    else (cl,["Invalid sync way"])
  (chosen.1,chosen.2 ++ ["OK"])

def cronFlushSlot (order : IterOrder CacheOps) (myself : NodeId) (slot : Slot) (st : SlotState) :
    SlotState × List Effect :=
  if st.isCopied && st.relatedIns.size > 0 then flushIfCounted order myself slot st else (st,[])

/-- The one-second flush of `clusterCron`. Every iteration of its loop touches its own slot only. -/
def clusterCronFlush (iteration : Nat) (orders : Slot → IterOrder CacheOps) (cl : ClusterState) :
    ClusterState × List Effect :=
  if cl.syncTime && iteration % 10 = 0 then
    let flushed := fun slot => cronFlushSlot (orders slot) cl.myself slot (cl.slotStatus slot)
    ({ cl with slotStatus := fun slot => (flushed slot).1 },
      (List.finRange 16384).flatMap (fun slot => (flushed slot).2))
  else (cl,[])

section members
variable (node : NodeId) (related : Roster)

theorem joinHas (n : NodeId) :
    (if related.has node then related else related.replace node).has n = (decide (node = n) || related.has n) := by
  split
  · next member =>
    by_cases same : node = n
    · subst same
      simp [member]
    · simp [same]
  · exact Dict.hasReplace _ _ _

theorem leaveHas (n : NodeId) :
    (if related.has node then related.delete node else related).has n = (decide (n ≠ node) && related.has n) := by
  split
  · exact Dict.hasDelete _ _ _
  · next absent =>
    by_cases same : n = node
    · subst same
      simpa using absent
    · simp [same]

end members

theorem addNodeOk (node : NodeId) (st : SlotState) :
    ∃ related, clusterHotGroupAddNode node st = .ok { st with relatedIns := related } ∧
      ∀ n, related.has n = (decide (node = n) || st.relatedIns.has n) := by
  refine ⟨_,?_,joinHas node st.relatedIns⟩
  unfold clusterHotGroupAddNode clusterNodeInHotGroup
  by_cases member : st.relatedIns.has node = true <;> simp [member,Dict.add]

theorem delNodeOk (node : NodeId) (st : SlotState) :
    ∃ related, clusterHotGroupDelNode node st = .ok { st with relatedIns := related } ∧
      ∀ n, related.has n = (decide (n ≠ node) && st.relatedIns.has n) := by
  refine ⟨_,?_,leaveHas node st.relatedIns⟩
  unfold clusterHotGroupDelNode clusterNodeInHotGroup
  by_cases member : st.relatedIns.has node = true <;> simp [member,Dict.remove]

/-- The handler makes the same set update as the local command, and marks the slot as copied. -/
theorem hotGroupUpdateAdd (node : NodeId) (st : SlotState) :
    ∃ related, hotGroupUpdate 1 node st = .ok { st with isCopied := true, relatedIns := related } ∧
      ∀ n, related.has n = (decide (node = n) || st.relatedIns.has n) := by
  refine ⟨_,?_,joinHas node st.relatedIns⟩
  unfold hotGroupUpdate
  by_cases member : st.relatedIns.has node = true <;> simp [member,Dict.add]

theorem hotGroupUpdateDel (node : NodeId) (st : SlotState) :
    ∃ related, hotGroupUpdate 2 node st = .ok { st with relatedIns := related } ∧
      ∀ n, related.has n = (decide (n ≠ node) && st.relatedIns.has n) := by
  refine ⟨_,?_,leaveHas node st.relatedIns⟩
  unfold hotGroupUpdate
  rw [if_neg (by decide),if_pos rfl]
  by_cases member : st.relatedIns.has node = true <;> simp [member,Dict.remove]

end HpuCache.GroupCommands
