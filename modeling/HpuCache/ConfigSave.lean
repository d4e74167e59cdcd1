import HpuCache.SlotTable
import HpuCache.TextLines

/-! The cluster configuration as the server writes it: a line for every node that is not in
handshake, with the slots of the node as ranges and, for the server itself, the markers of
the slots that move; last the line of the two epochs. -/
namespace HpuCache.ConfigSave
open BitArray ByteText FaultRun KeyedDict KeySlot NodeTable SlotTable TextLines

def textMyself : Bytes := [109,121,115,101,108,102]
def textMaster : Bytes := [109,97,115,116,101,114]
def textSlave : Bytes := [115,108,97,118,101]
def textPfail : Bytes := [102,97,105,108,63]
def textFail : Bytes := [102,97,105,108]
def textHandshake : Bytes := [104,97,110,100,115,104,97,107,101]
def textNoaddr : Bytes := [110,111,97,100,100,114]
def textNofailover : Bytes := [110,111,102,97,105,108,111,118,101,114]
def textNoflags : Bytes := [110,111,102,108,97,103,115]
def textConnected : Bytes := [99,111,110,110,101,99,116,101,100]
def textDisconnected : Bytes := [100,105,115,99,111,110,110,101,99,116,101,100]
def textVars : Bytes := [118,97,114,115]
def textCurrentEpoch : Bytes := [99,117,114,114,101,110,116,69,112,111,99,104]
def textLastVoteEpoch : Bytes := [108,97,115,116,86,111,116,101,69,112,111,99,104]

/-- `redisNodeFlagsTable`; the comma behind each name is put there by the loop. -/
def redisNodeFlagsTable : List ((NodeFlags → Bool) × Bytes) := [
  (NodeFlags.myself,textMyself),
  (NodeFlags.master,textMaster),
  (NodeFlags.slave,textSlave),
  (NodeFlags.pfail,textPfail),
  (NodeFlags.fail,textFail),
  (NodeFlags.handshake,textHandshake),
  (NodeFlags.noaddr,textNoaddr),
  (NodeFlags.nofailover,textNofailover)]

def representClusterNodeFlags (flags : NodeFlags) : Bytes :=
  let text := redisNodeFlagsTable.flatMap fun e => if e.1 flags then e.2 ++ [44] else []
  (if text = [] then textNoflags ++ [44] else text).dropLast

/-- The fields of a record that only its description reads. -/
structure Beat where
  pport : Nat
  pingSent : Int
  pongReceived : Int
  linked : Bool
  ping : -2 ^ 63 ≤ pingSent ∧ pingSent < 2 ^ 63
  pong : -2 ^ 63 ≤ pongReceived ∧ pongReceived < 2 ^ 63

/-- A port under `%i`, from the bits of the `int` that holds it. -/
def portText (port : Nat) : Bytes := signedDecimal (Int.bmod port (2 ^ 32))

def rangeText (range : Nat × Nat) : Bytes :=
  if range.1 = range.2 then decimal range.1 else decimal range.1 ++ 45 :: decimal range.2

def slotAt (s : ClusterState) (i : Nat) : Option NodePtr := if inside : i < 16384 then s.slots ⟨i,inside⟩ else none

structure InfoScan where
  -- The node and the first slot of the range that is open.
  node : Option NodePtr
  start : Nat
  slotsInfo : NodePtr → Option Bytes

def InfoScan.next (st : InfoScan) (s : ClusterState) (i : Nat) : InfoScan :=
  if i = 16384 then st else { st with node := slotAt s i, start := i }

def infoStep (s : ClusterState) (filter : NodeFlags → Bool) (st : InfoScan) (i : Nat) : Run InfoScan :=
  match st.node with
  | none => .ok (st.next s i)
  | some p =>
    if i = 16384 ∨ some p ≠ slotAt s i then do
      let n ← s.deref p
      if filter n.flags then .ok (st.next s i) else
        let info := (st.slotsInfo p).getD [] ++ 32 :: rangeText (st.start,i - 1)
        .ok ({ st with slotsInfo := Function.update st.slotsInfo p (some info) }.next s i)
    else .ok st

/-- What the run leaves in the `slots_info` of every node; it finds none there. -/
def clusterGenNodesSlotsInfo (s : ClusterState) (filter : NodeFlags → Bool) : Run (NodePtr → Option Bytes) := do
  let st ← (List.range (16384 + 1)).foldlM (infoStep s filter) ⟨none,0,fun _ => none⟩
  .ok st.slotsInfo

/-- The ranges of one bitmap; the first value is where the open range starts. -/
def bitmapRanges (n : ClusterNode) : Option Nat × Bytes :=
  (List.finRange 16384).foldl (fun st j =>
    let bit := bitmapTestBit n.slots j
    match (if bit then st.1.or (some j.val) else st.1) with
    | none => st
    | some start =>
      if !bit || j.val = 16383 then
        let past := if bit && j.val = 16383 then j.val + 1 else j.val
        (none,st.2 ++ 32 :: rangeText (start,past - 1))
      else (some start,st.2)) (none,[])

def slotsText (n : ClusterNode) (slotsInfo : Option Bytes) : Bytes :=
  match slotsInfo with
  | some info => info
  | none => if 0 < n.numslots then (bitmapRanges n).2 else []

def markerText (slot : Slot) (direction : UInt8) (name : NodeName) : Bytes :=
  91 :: decimal slot.val ++ 45 :: direction :: 45 :: (cstr name).take 40 ++ [93]

/-- A slot that is marked both ways is written as migrating. -/
def markerStep (s : ClusterState) (ci : Bytes) (slot : Slot) : Run Bytes :=
  match s.migratingSlotsTo slot, s.importingSlotsFrom slot with
  | some q, _ => do
    let m ← s.deref q
    .ok (ci ++ 32 :: markerText slot 62 m.name)
  | none, some q => do
    let m ← s.deref q
    .ok (ci ++ 32 :: markerText slot 60 m.name)
  | none, none => .ok ci

def markersText (s : ClusterState) : Run Bytes := sweep (markerStep s) []

/-- The name of the master, or a dash. -/
def masterText (s : ClusterState) (n : ClusterNode) : Run Bytes :=
  match n.slaveof with
  | some q => do
    let m ← s.deref q
    .ok m.name
  | none => .ok [45]

/-- A slave shows the epoch of its master. -/
def nodeEpoch (s : ClusterState) (n : ClusterNode) : Run Nat :=
  match n.slaveof with
  | some q => if n.flags.slave then do
      let m ← s.deref q
      .ok m.configEpoch
    else .ok n.configEpoch
  | none => .ok n.configEpoch

def clusterGenNodeDescription (s : ClusterState) (beats : NodePtr → Beat) (usePport : Bool)
    (slotsInfo : NodePtr → Option Bytes) (p : NodePtr) : Run Bytes := do
  let n ← s.deref p
  let beat := beats p
  let port := if usePport && beat.pport ≠ 0 then beat.pport else n.port
  let ci := n.name ++ 32 :: cstr n.ip ++ 58 :: portText port ++ 64 :: portText n.cport ++ [32]
  let ci := ci ++ representClusterNodeFlags n.flags ++ [32]
  let ci := ci ++ (← masterText s n)
  let epoch ← nodeEpoch s n
  let link := if beat.linked || n.flags.myself then textConnected else textDisconnected
  let ci := ci ++ 32 :: signedDecimal beat.pingSent ++ 32 :: signedDecimal beat.pongReceived ++
    32 :: decimal epoch ++ 32 :: link
  let ci := ci ++ slotsText n (slotsInfo p)
  if n.flags.myself then .ok (ci ++ (← markersText s)) else .ok ci

/-- The line of one entry; its `slots_info` is released when it is written. -/
def descriptionStep (s : ClusterState) (beats : NodePtr → Beat) (filter : NodeFlags → Bool) (usePport : Bool)
    (st : Bytes × (NodePtr → Option Bytes)) (e : TableEntry) : Run (Bytes × (NodePtr → Option Bytes)) := do
  let n ← s.deref e.node
  if filter n.flags then .ok st else
    let ni ← clusterGenNodeDescription s beats usePport st.2 e.node
    .ok (st.1 ++ ni ++ [10],Function.update st.2 e.node none)

def clusterGenNodesDescription (order : IterOrder TableEntry) (s : ClusterState) (beats : NodePtr → Beat)
    (filter : NodeFlags → Bool) (usePport : Bool) : Run Bytes := do
  let slotsInfo ← clusterGenNodesSlotsInfo s filter
  let written ← (order.arrange s.nodes.entries).foldlM (descriptionStep s beats filter usePport) ([],slotsInfo)
  .ok written.1

def varsText (s : ClusterState) : Bytes :=
  textVars ++ 32 :: textCurrentEpoch ++ 32 :: decimal s.currentEpoch ++
    32 :: textLastVoteEpoch ++ 32 :: decimal s.lastVoteEpoch

/-- The text that is handed to `write`, which covers the file of that size that is there;
the file is cut back to the text without its padding afterwards. -/
def clusterSaveConfig (order : IterOrder TableEntry) (s : ClusterState) (beats : NodePtr → Beat) (size : Nat) :
    Run Bytes := do
  let ci ← clusterGenNodesDescription order s beats NodeFlags.handshake false
  let ci := ci ++ varsText s ++ [10]
  .ok (ci ++ List.replicate (size - ci.length) 10)

end HpuCache.ConfigSave
