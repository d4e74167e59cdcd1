import HpuCache.SlotCommands

/-! The rest of what changes the node table: the commands on nodes, the packets that carry
configuration, and the timers. One step of a node is one event, with what chance decides
(addresses, random names, orders of iteration) in the event. -/
namespace HpuCache.NodeCommands
open BitArray FaultRun KeyedDict KeySlot NodeTable SlotUpdate SlotCommands

def replyUnknown (name : NodeName) : Reply := .error [.text "Unknown node ",.name name]

/-- CLUSTER FORGET. The blacklist is in the packets. -/
def forget (s : ClusterState) (name : NodeName) : Run (ClusterState × Reply) :=
  match clusterLookupNode s name with
  | none => .ok (s,replyUnknown name)
  | some n => do
    let me ← s.deref s.myself
    if n = s.myself then .ok (s,.error [.text "I tried hard but I can't forget myself..."])
    else if me.flags.slave ∧ me.slaveof = some n then .ok (s,.error [.text "Can't forget my master!"])
    else
      let s ← clusterDelNode s n
      .ok (s,.ok)

def clusterSetMaster (s : ClusterState) (n : NodePtr) : Run ClusterState := do
  let me ← s.deref s.myself
  if n = s.myself ∨ me.numslots ≠ 0 then .error .tableAssert else
    let s ← (if me.flags.master then
        s.modify s.myself fun me => { me with
          flags := { me.flags with master := false, migrateTo := false, slave := true } }
      else leaveMaster s s.myself me)
    let s := if me.flags.master then clusterCloseAllSlots s else s
    let s ← s.modify s.myself fun me => { me with slaveof := some n }
    clusterNodeAddSlave s n s.myself

def replicate (s : ClusterState) (name : NodeName) : Run (ClusterState × Reply) :=
  match clusterLookupNode s name with
  | none => .ok (s,replyUnknown name)
  | some n => do
    let me ← s.deref s.myself
    let node ← s.deref n
    if n = s.myself then .ok (s,.error [.text "Can't replicate myself"])
    else if node.flags.slave then .ok (s,.error [.text "I can only replicate a master, not a replica."])
    else if me.flags.master ∧ (me.numslots ≠ 0 ∨ dbEmpty s = false) then
      .ok (s,.error [.text "To set a master the node must be empty and without assigned slots."])
    else
      let s ← clusterSetMaster s n
      .ok (s,.ok)

def forgetAll (order : IterOrder TableEntry) (s : ClusterState) : Run ClusterState :=
  (order.arrange s.nodes.entries).foldlM (fun s e => if e.node = s.myself then .ok s else clusterDelNode s e.node) s

/-- The end of a hard reset. The old name's deletion is not checked. -/
def resetHard (s : ClusterState) (newname : NodeName) : Run ClusterState := do
  let me ← s.deref s.myself
  let s := { s with currentEpoch := 0, lastVoteEpoch := 0, nodes := s.nodes.delete me.name }
  clusterAddNode (s.store s.myself { me with configEpoch := 0, name := newname }) s.myself

/-- A replica becomes a master with an empty database. -/
def leaveReplication (s : ClusterState) : Run ClusterState := do
  let s ← clusterSetNodeAsMaster s s.myself
  .ok (s.setKeys fun _ => 0)

def clusterReset (s : ClusterState) (hard : Bool) (order : IterOrder TableEntry) (newname : NodeName) :
    Run ClusterState := do
  let me ← s.deref s.myself
  let s ← (if me.flags.slave then leaveReplication s else .ok s)
  let s := clusterCloseAllSlots s
  let s ← sweep (fun s j => do
    let (s,_) ← clusterDelSlot s j
    .ok s) s
  let s ← forgetAll order s
  if hard then resetHard s newname else .ok s

def reset (s : ClusterState) (hard : Bool) (order : IterOrder TableEntry) (newname : NodeName) :
    Run (ClusterState × Reply) := do
  let me ← s.deref s.myself
  if me.flags.master ∧ dbEmpty s = false then
    .ok (s,.error [.text "CLUSTER RESET can't be called with master nodes containing keys"])
  else
    let s ← clusterReset s hard order newname
    .ok (s,.ok)

/-- CLUSTER MEET for an address that is sane and in no other handshake. -/
def meet (s : ClusterState) (p : NodePtr) (name : NodeName) (ip : ByteText.Bytes) (port cport : Nat) :
    Run (ClusterState × Reply) := do
  let n := createClusterNode name { NodeFlags.none with handshake := true, meet := true }
  let s ← createNode s p { n with ip := ip, port := port, cport := cport }
  .ok (s,.ok)

def setRelated (s : ClusterState) (slot : Slot) (related : Dict TableEntry.name) : ClusterState :=
  { s with relatedIns := Function.update s.relatedIns slot related }

def clusterHotGroupAddNode (s : ClusterState) (n : NodePtr) (slot : Slot) : Run ClusterState := do
  let node ← s.deref n
  if (s.relatedIns slot).has node.name then .ok s else
    match (s.relatedIns slot).add ⟨node.name,n⟩ with
    | some related => .ok (setRelated s slot related)
    | none => .error .tableAssert

def clusterHotGroupDelNode (s : ClusterState) (n : NodePtr) (slot : Slot) : Run ClusterState := do
  let node ← s.deref n
  if (s.relatedIns slot).has node.name then
    match (s.relatedIns slot).remove node.name with
    | some related => .ok (setRelated s slot related)
    | none => .error .tableAssert
  else .ok s

/-- CLUSTER HOTGROUP on a parsed slot: after an argument that is no slot the code goes on with index -1. -/
def hotgroup (s : ClusterState) (del : Bool) (slot : Option Slot) : Run (ClusterState × Reply) :=
  match slot with
  | none => .error .slotRange
  | some slot => do
    let s ← (if del then clusterHotGroupDelNode s s.myself slot else clusterHotGroupAddNode s s.myself slot)
    .ok (s,.ok)

/-- The hot-group packet: the name of the node is read before the lookup is checked. -/
def hotGroupPacket (s : ClusterState) (nodename : NodeName) (slot status : UInt16) : Run ClusterState :=
  match clusterLookupNode s nodename with
  | none => .error .nullPointer
  | some n =>
    if status = 1 ∨ status = 2 then
      if inside : slot.toNat < 16384 then
        if status = 1 then clusterHotGroupAddNode s n ⟨slot.toNat,inside⟩
        else clusterHotGroupDelNode s n ⟨slot.toNat,inside⟩
      else .error .slotRange
    else .ok s

end HpuCache.NodeCommands
