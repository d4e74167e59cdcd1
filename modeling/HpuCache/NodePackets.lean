import HpuCache.NodeCommands

/-! The packets that carry configuration, the timers, and one step of a node as one event.
An event holds what chance decides: addresses, random names, orders of iteration. -/
namespace HpuCache.NodePackets
open BitArray ByteText FaultRun KeyedDict KeySlot NodeTable SlotUpdate SlotCommands NodeCommands

structure Header where
  sender : NodeName
  currentEpoch : Nat
  configEpoch : Nat

inductive PacketType where
  | ping
  | pong
  | meet
  deriving DecidableEq

structure GossipEntry where
  nodename : NodeName
  flags : NodeFlags
  ip : Bytes
  port : Nat
  cport : Nat
  -- Whether the name is on the blacklist, and the address of a new record.
  blacklisted : Bool
  fresh : NodePtr

structure ConfigPacket where
  type : PacketType
  master : Bool
  slave : Bool
  nofailover : Bool
  -- `none` is the null name.
  slaveof : Option NodeName
  myslots : Bitmap 16384
  gossip : List GossipEntry
  -- `link->node`
  link : Option NodePtr
  -- The record and the address of a node that is met.
  fresh : NodePtr
  freshName : NodeName
  ip : Bytes
  port : Nat
  cport : Nat

/-- The epochs of a known sender. The second value is `senderConfigEpoch`, zero when it was not read. -/
def updateEpochs (s : ClusterState) (hdr : Header) : Run (ClusterState × Nat) :=
  match clusterLookupNode s hdr.sender with
  | none => .ok (s,0)
  | some sender => do
    let n ← s.deref sender
    if n.flags.handshake then .ok (s,0) else
      let s := { s with currentEpoch := max s.currentEpoch hdr.currentEpoch }
      let s := if n.configEpoch < hdr.configEpoch then s.store sender { n with configEpoch := hdr.configEpoch } else s
      .ok (s,hdr.configEpoch)

/-- Unknown nodes are added when the sender is known. -/
def clusterProcessGossipSection (s : ClusterState) (sender : Option NodePtr) (gossip : List GossipEntry) :
    Run ClusterState :=
  gossip.foldlM (fun s g =>
    match clusterLookupNode s g.nodename with
    | some _ => .ok s
    | none =>
      if sender.isSome ∧ !g.flags.noaddr ∧ !g.blacklisted then
        createNode s g.fresh { createClusterNode g.nodename g.flags with ip := g.ip, port := g.port, cport := g.cport }
      else .ok s) s

/-- A MEET from an unknown node adds it under a random name. -/
def meetUnknown (s : ClusterState) (hdr : Header) (pkt : ConfigPacket) : Run ClusterState :=
  if clusterLookupNode s hdr.sender = none ∧ pkt.type = .meet then do
    let n := createClusterNode pkt.freshName { NodeFlags.none with handshake := true }
    let s ← createNode s pkt.fresh { n with ip := pkt.ip, port := pkt.port, cport := pkt.cport }
    clusterProcessGossipSection s (pkt.link.or (clusterLookupNode s hdr.sender)) pkt.gossip
  else .ok s

/-- The end of a handshake. The second value is whether the packet is processed further. -/
def linkedNode (s : ClusterState) (hdr : Header) (pkt : ConfigPacket) (sender : Option NodePtr) :
    Run (ClusterState × Bool) :=
  match pkt.link with
  | none => .ok (s,true)
  | some p => do
    let n ← s.deref p
    if n.flags.handshake then
      if sender.isSome then
        let s ← clusterDelNode s p
        .ok (s,false)
      else
        let s ← clusterRenameNode s p hdr.sender
        let s ← s.modify p fun n =>
          { n with flags := { n.flags with
            handshake := false
            master := n.flags.master || pkt.master
            slave := n.flags.slave || pkt.slave } }
        .ok (s,true)
    else if n.name ≠ hdr.sender then
      let s ← s.modify p fun n => { n with flags := { n.flags with noaddr := true }, ip := [], port := 0, cport := 0 }
      .ok (s,false)
    else .ok (s,true)

def demote (s : ClusterState) (sender : NodePtr) : Run ClusterState := do
  let s ← clusterDelNodeSlots s sender
  s.modify sender fun n => { n with flags := { n.flags with master := false, migrateTo := false, slave := true } }

def followMaster (s : ClusterState) (sender master : NodePtr) : Run ClusterState := do
  let n ← s.deref sender
  if n.slaveof = some master then .ok s else
    let s ← leaveMaster s sender n
    let s ← clusterNodeAddSlave s master sender
    s.modify sender fun n => { n with slaveof := some master }

def switchRole (s : ClusterState) (sender : NodePtr) (slaveof : Option NodeName) : Run ClusterState :=
  match slaveof with
  | none => clusterSetNodeAsMaster s sender
  | some name => do
    let master := clusterLookupNode s name
    let n ← s.deref sender
    let s ← (if n.flags.master then demote s sender else .ok s)
    match master with
    | none => .ok s
    | some master => followMaster s sender master

def sameSlots (left right : Bitmap 16384) : Bool :=
  allSlots.all fun j => bitmapTestBit left j == bitmapTestBit right j

/-- The slots of a master whose claim differs from what is known of it. -/
def updateSlots (s : ClusterState) (sender : NodePtr) (senderConfigEpoch : Nat) (myslots : Bitmap 16384) :
    Run ClusterState := do
  let n ← s.deref sender
  if n.flags.master ∧ sameSlots n.slots myslots = false then
    clusterUpdateSlotsConfigWith s sender senderConfigEpoch myslots
  else .ok s

def clusterHandleConfigEpochCollision (s : ClusterState) (sender : NodePtr) (senderConfigEpoch : Nat) :
    Run ClusterState := do
  let me ← s.deref s.myself
  let n ← s.deref sender
  if me.flags.master ∧ n.flags.master ∧ senderConfigEpoch = me.configEpoch ∧ n.configEpoch = me.configEpoch ∧
      me.name < n.name then
    let epoch := s.currentEpoch + 1
    .ok ({ s with currentEpoch := epoch }.store s.myself { me with configEpoch := epoch })
  else .ok s

def knownSender (s : ClusterState) (sender : NodePtr) (senderConfigEpoch : Nat) (pkt : ConfigPacket) :
    Run ClusterState := do
  let s ← s.modify sender fun n => { n with flags := { n.flags with nofailover := pkt.nofailover } }
  let s ← switchRole s sender pkt.slaveof
  let s ← updateSlots s sender senderConfigEpoch pkt.myslots
  let s ← clusterHandleConfigEpochCollision s sender senderConfigEpoch
  clusterProcessGossipSection s (some (pkt.link.getD sender)) pkt.gossip

def configPacket (s : ClusterState) (hdr : Header) (pkt : ConfigPacket) : Run ClusterState := do
  let sender := clusterLookupNode s hdr.sender
  let (s,senderConfigEpoch) ← updateEpochs s hdr
  let s ← meetUnknown s hdr pkt
  let (s,goOn) ← linkedNode s hdr pkt sender
  match goOn, sender with
  | true, some sender => knownSender s sender senderConfigEpoch pkt
  | _, _ => .ok s

def updatePacket (s : ClusterState) (hdr : Header) (nodename : NodeName) (configEpoch : Nat) (slots : Bitmap 16384) :
    Run ClusterState := do
  let sender := clusterLookupNode s hdr.sender
  let (s,_) ← updateEpochs s hdr
  match sender, clusterLookupNode s nodename with
  | some _, some n => do
    let node ← s.deref n
    if configEpoch ≤ node.configEpoch then .ok s else
      let s ← (if node.flags.slave then clusterSetNodeAsMaster s n else .ok s)
      let s ← s.modify n fun n => { n with configEpoch := configEpoch }
      clusterUpdateSlotsConfigWith s n configEpoch slots
  | _, _ => .ok s

/-- The handshake of a node is given up by the timer. -/
def handshakeTimeout (s : ClusterState) (p : NodePtr) : Run ClusterState := do
  let n ← s.deref p
  if !n.flags.myself ∧ !n.flags.noaddr ∧ n.flags.handshake then clusterDelNode s p else .ok s

/-- A replica that won the election takes the slots of its master. -/
def clusterFailoverReplaceYourMaster (s : ClusterState) : Run ClusterState := do
  let me ← s.deref s.myself
  match me.flags.master, me.slaveof with
  | false, some oldmaster => do
    let s ← clusterSetNodeAsMaster s s.myself
    sweep (fun s j => do
      if ← nodeGetSlotBit s oldmaster j then reassignSlot s s.myself j else .ok s) s
  | _, _ => .ok s

inductive Event where
  | addslots (del : Bool) (args : List (Option Slot))
  | flushslots
  | setslot (slot : Option Slot) (action : SetslotAction)
  | setallslot (action : SetallslotAction) (source target : NodeName)
  | bumpepoch
  | forget (name : NodeName)
  | replicate (name : NodeName)
  | reset (hard : Bool) (order : IterOrder TableEntry) (newname : NodeName)
  | meet (fresh : NodePtr) (name : NodeName) (ip : Bytes) (port cport : Nat)
  | hotgroup (del : Bool) (slot : Option Slot)
  | config (hdr : Header) (pkt : ConfigPacket)
  | update (hdr : Header) (nodename : NodeName) (configEpoch : Nat) (slots : Bitmap 16384)
  | hotGroupPacket (hdr : Header) (nodename : NodeName) (slot status : UInt16)
  | handshakeTimeout (p : NodePtr)
  | failover
  -- Writes of clients.
  | keys (count : Slot → Nat)
  -- Failure detection and new addresses, which depend on time, links and reports.
  | liveness (p : NodePtr) (pfail fail noaddr : Bool) (ip : Bytes) (port cport : Nat)

/-- One event; the replies of the commands are left out. -/
def step (s : ClusterState) : Event → Run ClusterState
  | .addslots del args => return (← addslots s del args).1
  | .flushslots => return (← flushslots s).1
  | .setslot slot action => return (← setslot s slot action).1
  | .setallslot action source target => return (← setallslot s action source target).1
  | .bumpepoch => return (← clusterBumpConfigEpochWithoutConsensus s).1
  | .forget name => return (← forget s name).1
  | .replicate name => return (← replicate s name).1
  | .reset hard order newname => return (← reset s hard order newname).1
  | .meet fresh name ip port cport => return (← meet s fresh name ip port cport).1
  | .hotgroup del slot => return (← hotgroup s del slot).1
  | .config hdr pkt => configPacket s hdr pkt
  | .update hdr nodename configEpoch slots => updatePacket s hdr nodename configEpoch slots
  | .hotGroupPacket hdr nodename slot status => do
    let (s,_) ← updateEpochs s hdr
    hotGroupPacket s nodename slot status
  | .handshakeTimeout p => handshakeTimeout s p
  | .failover => clusterFailoverReplaceYourMaster s
  | .keys count => .ok (s.setKeys count)
  | .liveness p pfail fail noaddr ip port cport =>
    s.modify p fun n =>
      { n with
        flags := { n.flags with pfail := pfail, fail := fail, noaddr := noaddr },
        ip := ip, port := port, cport := cport }

end HpuCache.NodePackets
