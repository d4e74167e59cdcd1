import HpuCache.ConfigSave

/-! The cluster configuration as the server reads it back: line by line, token by token,
with a node made at its first mention and filled in at its own line. What the code aborts
on, and what reads or writes past a buffer, ends the loading with a fault. -/
namespace HpuCache.ConfigLoad
open BitArray ByteText FaultRun KeyedDict KeySlot NodeTable SlotTable TextLines ConfigSave

inductive LoadFault where
  -- The jump to `fmterr`, which exits.
  | fmterr
  | unknownFlag
  -- `myself` was set by an earlier line.
  | myselfAssert
  -- A marker without a dash.
  | dashAssert
  -- A name of fewer than 40 bytes, or a line without arguments, is read past its end.
  | overread
  -- An address does not fit the record.
  | overflow
  | fault (of : Fault)
  deriving DecidableEq

abbrev Load := Except LoadFault

def lift {α : Type} : Run α → Load α
  | .ok a => .ok a
  | .error e => .error (.fault e)

/-- The server while it loads; its own node is known once `myself` is there. -/
structure Loading where
  cluster : ClusterState
  myself : Option NodePtr
  -- The address of the next record.
  fresh : NodePtr

def emptyState (noRedirection allowReplicaMigration : Bool) : ClusterState where
  myself := 0
  currentEpoch := 0
  lastVoteEpoch := 0
  nodes := .empty
  heap := fun _ => none
  slots := fun _ => none
  migratingSlotsTo := fun _ => none
  importingSlotsFrom := fun _ => none
  slotsKeysCount := fun _ => 0
  relatedIns := fun _ => .empty
  noRedirection := noRedirection
  allowReplicaMigration := allowReplicaMigration

def Loading.put (ld : Loading) (p : NodePtr) (k : ClusterNode) : Loading := { ld with cluster := ld.cluster.store p k }

@[simp] theorem putHeap (ld : Loading) (p : NodePtr) (k : ClusterNode) :
    (ld.put p k).cluster.heap = Function.update ld.cluster.heap p (some k) := rfl

theorem putTwice (ld : Loading) (p : NodePtr) (n k : ClusterNode) : (ld.put p n).put p k = ld.put p k := by
  simp only [Loading.put,storeTwice]

def Loading.modify (ld : Loading) (p : NodePtr) (change : ClusterNode → ClusterNode) : Load Loading := do
  let cluster ← lift (ld.cluster.modify p change)
  .ok { ld with cluster := cluster }

/-- The node of that name, made if there is none. The name is read as 40 bytes. -/
def nodeOf (ld : Loading) (name : Bytes) : Load (Loading × NodePtr) :=
  if name.length < 40 then .error .overread else
    match clusterLookupNode ld.cluster (name.take 40) with
    | some p => .ok (ld,p)
    | none => do
      let cluster ← lift (createNode ld.cluster ld.fresh (createClusterNode (name.take 40) .none))
      .ok ({ ld with cluster := cluster, fresh := ld.fresh + 1 },ld.fresh)

/-- The bits of an `int` as the record holds them. -/
def portOf (v : Int) : Nat := (v % 2 ^ 32).toNat

/-- The address, and the two ports behind its last colon. -/
def readAddress (text : Bytes) : Load (Bytes × Nat × Nat) :=
  match strrchr text 58 with
  | none => .error .fmterr
  | some (ip,ports) =>
    if 46 ≤ ip.length then .error .overflow else
      match strchr ports 64 with
      | some (port,busp) => .ok (ip,portOf (atoi port),portOf (atoi busp))
      | none => .ok (ip,portOf (atoi ports),portOf (atoi ports + 10000))

def flagOf (s : Bytes) : Option (NodeFlags → NodeFlags) :=
  if strcasecmpEqual s textMyself then some fun f => { f with myself := true }
  else if strcasecmpEqual s textMaster then some fun f => { f with master := true }
  else if strcasecmpEqual s textSlave then some fun f => { f with slave := true }
  else if strcasecmpEqual s textPfail then some fun f => { f with pfail := true }
  else if strcasecmpEqual s textFail then some fun f => { f with fail := true }
  else if strcasecmpEqual s textHandshake then some fun f => { f with handshake := true }
  else if strcasecmpEqual s textNoaddr then some fun f => { f with noaddr := true }
  else if strcasecmpEqual s textNofailover then some fun f => { f with nofailover := true }
  else if strcasecmpEqual s textNoflags then some id
  else none

def readFlag (p : NodePtr) (ld : Loading) (s : Bytes) : Load Loading := do
  let ld ← (if strcasecmpEqual s textMyself then
      if ld.myself.isSome then .error .myselfAssert else .ok { ld with myself := some p }
    else .ok ld : Load Loading)
  match flagOf s with
  | some set => ld.modify p fun n => { n with flags := set n.flags }
  | none => .error .unknownFlag

/-- What stands in the field of the master is a name, unless it begins with a dash. -/
def readMaster (p : NodePtr) (ld : Loading) (text : Bytes) : Load Loading :=
  if text.head? = some 45 then .ok ld else do
    let (ld,master) ← nodeOf ld (text ++ [0])
    let ld ← ld.modify p fun n => { n with slaveof := some master }
    let cluster ← lift (clusterNodeAddSlave ld.cluster master p)
    .ok { ld with cluster := cluster }

def slotNumber (v : Int) : Option Slot :=
  if inside : 0 ≤ v ∧ v < 16384 then some ⟨v.toNat,slotBelow inside⟩ else none

def addStep (p : NodePtr) (cluster : ClusterState) (slot : Slot) : Load ClusterState := do
  let (cluster,_) ← lift (clusterAddSlot cluster p slot)
  .ok cluster

def addSlots (p : NodePtr) (ld : Loading) (start stop : Slot) : Load Loading := do
  let cluster ← (allSlots.filter fun j => start ≤ j && j ≤ stop).foldlM (addStep p) ld.cluster
  .ok { ld with cluster := cluster }

def Loading.mark (ld : Loading) (slot : Slot) (direction : UInt8) (cn : NodePtr) : Loading :=
  { ld with cluster :=
    if direction = 62
    then { ld.cluster with migratingSlotsTo := Function.update ld.cluster.migratingSlotsTo slot (some cn) }
    else { ld.cluster with importingSlotsFrom := Function.update ld.cluster.importingSlotsFrom slot (some cn) } }

/-- `[slot->-name]` or `[slot-<-name]`; what follows the forty bytes of the name is not read. -/
def readMarker (ld : Loading) (text : Bytes) : Load Loading :=
  match strchr text 45 with
  | none => .error .dashAssert
  | some (number,_) =>
    match slotNumber (atoi (number.drop 1)) with
    | none => .error .fmterr
    | some slot => do
      let arrow : Bytes := (text ++ [0]).drop (number.length + 1)
      let (ld,cn) ← nodeOf ld (arrow.drop 2)
      .ok (ld.mark slot (arrow.headD 0) cn)

def readSlots (p : NodePtr) (ld : Loading) (text : Bytes) : Load Loading :=
  if text.head? = some 91 then readMarker ld text else
    let range := match strchr text 45 with
      | some (start,stop) => (atoi start,atoi stop)
      | none => (atoi text,atoi text)
    match slotNumber range.1,slotNumber range.2 with
    | some start,some stop => addSlots p ld start stop
    | _,_ => .error .fmterr

def readVars (ld : Loading) : List Bytes → Load Loading
  | [] => .ok ld
  | [_] => .error .fmterr
  | name :: value :: rest =>
    let cluster :=
      if strcasecmpEqual name textCurrentEpoch then { ld.cluster with currentEpoch := strtoull value }
      else if strcasecmpEqual name textLastVoteEpoch then { ld.cluster with lastVoteEpoch := strtoull value }
      else ld.cluster
    readVars { ld with cluster := cluster } rest

/-- The fields of a line before its slots; the times of the pings are not kept here. -/
def readFields (p : NodePtr) (ld : Loading) (address flags master epoch : Bytes) : Load Loading := do
  let (ip,port,cport) ← readAddress address
  let ld ← ld.modify p fun n => { n with ip := ip, port := port, cport := cport }
  let ld ← ((cstr flags).splitOn 44).foldlM (readFlag p) ld
  let ld ← readMaster p ld master
  ld.modify p fun n => { n with configEpoch := strtoull epoch }

def readNode (ld : Loading) (name address flags master epoch : Bytes) (slots : List Bytes) : Load Loading := do
  let (ld,p) ← nodeOf ld (name ++ [0])
  let ld ← readFields p ld address flags master epoch
  slots.foldlM (readSlots p) ld

def readLine (ld : Loading) (line : Bytes) : Load Loading :=
  if line.headD 0 = 10 ∨ line.headD 0 = 0 then .ok ld else
    match sdssplitargs line with
    | none => .error .fmterr
    | some [] => .error .overread
    | some (first :: rest) =>
      if strcasecmpEqual first textVars then
        if rest.length % 2 = 1 then .error .fmterr else readVars ld rest
      else
        match rest with
        | address :: flags :: master :: _pingSent :: _pongReceived :: epoch :: _link :: slots =>
          readNode ld first address flags master epoch slots
        | _ => .error .fmterr

/-- The buffer of a line has room for `1024 + 16384 * 128` bytes. -/
def maxRoom : Nat := 1024 + 16384 * 128 - 2

/-- No file, or an empty one, is `C_ERR`. -/
def clusterLoadConfig (noRedirection allowReplicaMigration : Bool) (file : Option Bytes) : Load (Option ClusterState) :=
  match file with
  | none | some [] => .ok none
  | some text => do
    let ld ← (linesOf maxRoom text).foldlM readLine ⟨emptyState noRedirection allowReplicaMigration,none,0⟩
    match ld.myself with
    | none => .error .fmterr
    | some p =>
      let s := { ld.cluster with myself := p }
      .ok (some { s with currentEpoch := max s.currentEpoch (clusterGetMaxEpoch s) })

end HpuCache.ConfigLoad
