import HpuCache.BitArray
import HpuCache.ByteText
import HpuCache.FaultRun
import HpuCache.KeyedDict
import HpuCache.KeySlot

/-! The table of cluster nodes: the records in memory, the dictionary that finds them by
name, and the arrays that give every slot its owner and its markers. A record that was
freed, or an assertion that does not hold, ends the step with a fault. -/
namespace HpuCache.NodeTable
open BitArray ByteText FaultRun KeyedDict KeySlot

@[irreducible] def allSlots : List Slot := List.finRange 16384

theorem memAll (j : Slot) : j ∈ allSlots := by
  unfold allSlots
  exact List.mem_finRange j

theorem allDistinct : allSlots.Nodup := by
  unfold allSlots
  exact List.nodup_finRange 16384

abbrev NodePtr := Nat
abbrev NodeName := Bytes

structure NodeFlags where
  master : Bool
  slave : Bool
  pfail : Bool
  fail : Bool
  myself : Bool
  handshake : Bool
  noaddr : Bool
  meet : Bool
  migrateTo : Bool
  nofailover : Bool
  deriving DecidableEq

def NodeFlags.none : NodeFlags := ⟨false,false,false,false,false,false,false,false,false,false⟩

structure ClusterNode where
  name : NodeName
  flags : NodeFlags
  configEpoch : Nat
  slots : Bitmap 16384
  numslots : Int
  ip : Bytes
  port : Nat
  cport : Nat
  -- `numslaves` is the length.
  slaves : List NodePtr
  slaveof : Option NodePtr

structure TableEntry where
  name : NodeName
  node : NodePtr
  deriving DecidableEq

structure ClusterState where
  myself : NodePtr
  currentEpoch : Nat
  lastVoteEpoch : Nat
  nodes : Dict TableEntry.name
  heap : NodePtr → Option ClusterNode
  slots : Slot → Option NodePtr
  migratingSlotsTo : Slot → Option NodePtr
  importingSlotsFrom : Slot → Option NodePtr
  slotsKeysCount : Slot → Nat
  -- `slot_status[s].related_ins`
  relatedIns : Slot → Dict TableEntry.name
  -- `CLUSTER_MODULE_FLAG_NO_REDIRECTION` and `cluster-allow-replica-migration`.
  noRedirection : Bool
  allowReplicaMigration : Bool

inductive Fault where
  -- The assertion on the cleared bit in `clusterDelSlot`.
  | delSlotAssert
  -- An assertion on a dictionary or on the result of a slot change.
  | tableAssert
  | nullPointer
  | freed
  -- An index of `slot_status` outside the array.
  | slotRange
  -- An address in use was chosen for a new record, which no allocator does.
  | notFresh
  deriving DecidableEq

abbrev Run := Except Fault

def createClusterNode (nodename : NodeName) (flags : NodeFlags) : ClusterNode :=
  ⟨nodename,flags,0,emptyBitmap,0,[],0,0,[],none⟩

/-- The state of a server that found no configuration file. -/
def clusterInit (p : NodePtr) (nodename : NodeName) : ClusterState where
  myself := p
  currentEpoch := 0
  lastVoteEpoch := 0
  nodes := ⟨[⟨nodename,p⟩],List.nodup_singleton nodename⟩
  heap := Function.update (fun _ => none) p
    (some (createClusterNode nodename { NodeFlags.none with myself := true, master := true }))
  slots := fun _ => none
  migratingSlotsTo := fun _ => none
  importingSlotsFrom := fun _ => none
  slotsKeysCount := fun _ => 0
  relatedIns := fun _ => .empty
  noRedirection := false
  allowReplicaMigration := true

def ClusterState.deref (s : ClusterState) (p : NodePtr) : Run ClusterNode :=
  match s.heap p with
  | some n => .ok n
  | none => .error .freed

def ClusterState.store (s : ClusterState) (p : NodePtr) (n : ClusterNode) : ClusterState :=
  { s with heap := Function.update s.heap p (some n) }

@[simp] theorem storeHeap (s : ClusterState) (p : NodePtr) (n : ClusterNode) :
    (s.store p n).heap = Function.update s.heap p (some n) := rfl

@[simp] theorem storeSlots (s : ClusterState) (p : NodePtr) (n : ClusterNode) : (s.store p n).slots = s.slots := rfl

theorem storeTwice (s : ClusterState) (p : NodePtr) (n m : ClusterNode) : (s.store p n).store p m = s.store p m := by
  simp only [ClusterState.store,Function.update_idem]

def ClusterState.setKeys (s : ClusterState) (keys : Slot → Nat) : ClusterState := { s with slotsKeysCount := keys }

def ClusterState.modify (s : ClusterState) (p : NodePtr) (change : ClusterNode → ClusterNode) : Run ClusterState := do
  let n ← s.deref p
  .ok (s.store p (change n))

def clusterLookupNode (s : ClusterState) (name : NodeName) : Option NodePtr := (s.nodes.find name).map TableEntry.node

def clusterAddNode (s : ClusterState) (p : NodePtr) : Run ClusterState := do
  let n ← s.deref p
  match s.nodes.add ⟨n.name,p⟩ with
  | some nodes => .ok { s with nodes := nodes }
  | none => .error .tableAssert

/-- The name is the caller's: random, or the one that was announced. -/
def createNode (s : ClusterState) (p : NodePtr) (n : ClusterNode) : Run ClusterState :=
  if (s.heap p).isSome then .error .notFresh else clusterAddNode (s.store p n) p

def clusterMastersHaveSlaves (s : ClusterState) : Bool :=
  s.nodes.entries.any fun e => (s.heap e.node).any fun n => !n.flags.slave && !n.slaves.isEmpty

def clusterNodeSetSlotBit (s : ClusterState) (p : NodePtr) (slot : Slot) : Run ClusterState := do
  let n ← s.deref p
  let old := bitmapTestBit n.slots slot
  let n := { n with slots := bitmapSetBit n.slots slot }
  if old then .ok (s.store p n) else
    let n := { n with numslots := n.numslots + 1 }
    let s := s.store p n
    if n.numslots = 1 ∧ clusterMastersHaveSlaves s then
      .ok (s.store p { n with flags := { n.flags with migrateTo := true } })
    else .ok s

/-- The second value is the bit as it was. -/
def clusterNodeClearSlotBit (s : ClusterState) (p : NodePtr) (slot : Slot) : Run (ClusterState × Bool) := do
  let n ← s.deref p
  let old := bitmapTestBit n.slots slot
  let n := { n with slots := bitmapClearBit n.slots slot }
  .ok (s.store p (if old then { n with numslots := n.numslots - 1 } else n),old)

/-- The second value is whether the code returns `C_OK`. -/
def clusterAddSlot (s : ClusterState) (p : NodePtr) (slot : Slot) : Run (ClusterState × Bool) := do
  if (s.slots slot).isSome then .ok (s,false) else
    let s ← clusterNodeSetSlotBit s p slot
    .ok ({ s with slots := Function.update s.slots slot (some p) },true)

def clusterDelSlot (s : ClusterState) (slot : Slot) : Run (ClusterState × Bool) :=
  match s.slots slot with
  | none => .ok (s,false)
  | some p => do
    let (s,old) ← clusterNodeClearSlotBit s p slot
    if old then .ok ({ s with slots := Function.update s.slots slot none },true) else .error .delSlotAssert

/-- The two calls that give a slot another owner; no caller looks at what they return. -/
def reassignSlot (s : ClusterState) (p : NodePtr) (slot : Slot) : Run ClusterState := do
  let (s,_) ← clusterDelSlot s slot
  let (s,_) ← clusterAddSlot s p slot
  .ok s

def nodeGetSlotBit (s : ClusterState) (p : NodePtr) (slot : Slot) : Run Bool := do
  let n ← s.deref p
  .ok (bitmapTestBit n.slots slot)

def clusterDelNodeSlots (s : ClusterState) (p : NodePtr) : Run ClusterState :=
  sweep (fun s slot => do
    if ← nodeGetSlotBit s p slot then
      let (s,_) ← clusterDelSlot s slot
      .ok s
    else .ok s) s

def clusterCloseAllSlots (s : ClusterState) : ClusterState :=
  { s with migratingSlotsTo := fun _ => none, importingSlotsFrom := fun _ => none }

def clusterNodeRemoveSlave (s : ClusterState) (master slave : NodePtr) : Run ClusterState := do
  let m ← s.deref master
  if slave ∈ m.slaves then
    let slaves := m.slaves.erase slave
    .ok (s.store master
      { m with
        slaves := slaves
        flags := if slaves = [] then { m.flags with migrateTo := false } else m.flags })
  else .ok s

def clusterNodeAddSlave (s : ClusterState) (master slave : NodePtr) : Run ClusterState := do
  let m ← s.deref master
  if slave ∈ m.slaves then .ok s
  else .ok (s.store master { m with slaves := m.slaves ++ [slave], flags := { m.flags with migrateTo := true } })

def leaveMaster (s : ClusterState) (p : NodePtr) (n : ClusterNode) : Run ClusterState :=
  match n.slaveof with
  | some master => clusterNodeRemoveSlave s master p
  | none => .ok s

def freeClusterNode (s : ClusterState) (p : NodePtr) : Run ClusterState := do
  let n ← s.deref p
  let s ← n.slaves.foldlM (fun s slave => s.modify slave fun m => { m with slaveof := none }) s
  let n ← s.deref p
  let s ← (if n.flags.slave then leaveMaster s p n else .ok s)
  match s.nodes.remove n.name with
  | some nodes => .ok { s with nodes := nodes, heap := Function.update s.heap p none }
  | none => .error .tableAssert

def closeMarkers (s : ClusterState) (delnode : NodePtr) (slot : Slot) : ClusterState :=
  { s with
    importingSlotsFrom := if s.importingSlotsFrom slot = some delnode then
      Function.update s.importingSlotsFrom slot none else s.importingSlotsFrom
    migratingSlotsTo := if s.migratingSlotsTo slot = some delnode then
      Function.update s.migratingSlotsTo slot none else s.migratingSlotsTo }

def clusterDelNode (s : ClusterState) (delnode : NodePtr) : Run ClusterState := do
  let s ← sweep (fun s slot => do
    let s := closeMarkers s delnode slot
    if s.slots slot = some delnode then
      let (s,_) ← clusterDelSlot s slot
      .ok s
    else .ok s) s
  freeClusterNode s delnode

def clusterRenameNode (s : ClusterState) (p : NodePtr) (newname : NodeName) : Run ClusterState := do
  let n ← s.deref p
  match s.nodes.remove n.name with
  | some nodes => clusterAddNode ({ s with nodes := nodes }.store p { n with name := newname }) p
  | none => .error .tableAssert

def clusterGetMaxEpoch (s : ClusterState) : Nat :=
  s.nodes.entries.foldl (fun best e => max best ((s.heap e.node).elim 0 ClusterNode.configEpoch)) s.currentEpoch

/-- The second value is whether a new epoch was taken. -/
def clusterBumpConfigEpochWithoutConsensus (s : ClusterState) : Run (ClusterState × Bool) := do
  let me ← s.deref s.myself
  if me.configEpoch = 0 ∨ me.configEpoch ≠ clusterGetMaxEpoch s then
    let epoch := s.currentEpoch + 1
    .ok ({ s with currentEpoch := epoch }.store s.myself { me with configEpoch := epoch },true)
  else .ok (s,false)

def clusterSetNodeAsMaster (s : ClusterState) (p : NodePtr) : Run ClusterState := do
  let n ← s.deref p
  if n.flags.master then .ok s else
    let s ← leaveMaster s p n
    let s ← (if n.slaveof.isSome ∧ p ≠ s.myself then
      s.modify p fun n => { n with flags := { n.flags with migrateTo := true } } else .ok s)
    s.modify p fun n => { n with flags := { n.flags with slave := false, master := true }, slaveof := none }

end HpuCache.NodeTable
