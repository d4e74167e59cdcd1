import HpuCache.SlotUpdate

/-! The commands on slots: ADDSLOTS, DELSLOTS and FLUSHSLOTS, SETSLOT for one slot, and
SETALLSLOT for all the slots of a node. -/
namespace HpuCache.SlotCommands
open BitArray ByteText FaultRun KeySlot NodeTable SlotTable

inductive Part where
  | text (t : String)
  | slot (j : Slot)
  | name (n : NodeName)
  | word (w : Bytes)
  deriving DecidableEq

inductive Reply where
  | ok
  | error (parts : List Part)
  deriving DecidableEq

def dbEmpty (s : ClusterState) : Bool := allSlots.all fun j => s.slotsKeysCount j = 0

def flushslots (s : ClusterState) : Run (ClusterState × Reply) := do
  if !dbEmpty s then .ok (s,.error [.text "DB must be empty to perform CLUSTER FLUSHSLOTS."])
  else
    let s ← clusterDelNodeSlots s s.myself
    .ok (s,.ok)

/-- The first loop: `none` is an argument that is no slot. -/
def checkSlots (s : ClusterState) (del : Bool) (marks : Slot → Nat) : List (Option Slot) → Except Reply (Slot → Nat)
  | [] => .ok marks
  | none :: _ => .error (.error [.text "Invalid or out of range slot"])
  | some slot :: rest =>
    if del ∧ s.slots slot = none then .error (.error [.text "Slot ",.slot slot,.text " is already unassigned"])
    else if !del ∧ s.slots slot ≠ none then .error (.error [.text "Slot ",.slot slot,.text " is already busy"])
    else if marks slot = 1 then .error (.error [.text "Slot ",.slot slot,.text " specified multiple times"])
    else checkSlots s del (Function.update marks slot (marks slot + 1)) rest

def clearImporting (s : ClusterState) (slot : Slot) : ClusterState :=
  { s with importingSlotsFrom := Function.update s.importingSlotsFrom slot none }

def clearMigrating (s : ClusterState) (slot : Slot) : ClusterState :=
  { s with migratingSlotsTo := Function.update s.migratingSlotsTo slot none }

def applySlots (del : Bool) (marks : Slot → Nat) (s : ClusterState) : Run ClusterState :=
  sweep (fun s j => do
    if marks j ≠ 0 then
      let s := if (s.importingSlotsFrom j).isSome then clearImporting s j else s
      let (s,done) ← (if del then clusterDelSlot s j else clusterAddSlot s s.myself j)
      if done then .ok s else .error .tableAssert
    else .ok s) s

def addslots (s : ClusterState) (del : Bool) (args : List (Option Slot)) : Run (ClusterState × Reply) :=
  match checkSlots s del (fun _ => 0) args with
  | .error reply => .ok (s,reply)
  | .ok marks => do
    let s ← applySlots del marks s
    .ok (s,.ok)

inductive SetslotAction where
  | migrating (name : NodeName)
  | importing (name : NodeName)
  | stable
  | node (name : NodeName)
  | other

def replicaReply : Reply := .error [.text "Please use SETSLOT only with masters."]
def actionReply : Reply :=
  .error [.text "Invalid CLUSTER SETSLOT action or number of arguments. Try CLUSTER HELP"]
def unknownReply (name : NodeName) : Reply := .error [.text "I don't know about node ",.name name]

/-- SETSLOT NODE for a known node. The PONG that ends an import is not part of the state. -/
def setslotNode (s : ClusterState) (slot : Slot) (n : NodePtr) : Run ClusterState := do
  let s := if s.slotsKeysCount slot = 0 ∧ (s.migratingSlotsTo slot).isSome then clearMigrating s slot else s
  let s ← reassignSlot s n slot
  if n = s.myself ∧ (s.importingSlotsFrom slot).isSome then
    let (s,_) ← clusterBumpConfigEpochWithoutConsensus s
    .ok (clearImporting s slot)
  else .ok s

def setslot (s : ClusterState) (slot : Option Slot) (action : SetslotAction) : Run (ClusterState × Reply) := do
  let me ← s.deref s.myself
  if me.flags.slave then .ok (s,replicaReply) else
    match slot with
    | none => .ok (s,.error [.text "Invalid or out of range slot"])
    | some slot =>
      match action with
      | .migrating name =>
        if s.slots slot ≠ some s.myself then
          .ok (s,.error [.text "I'm not the owner of hash slot ",.slot slot])
        else
          match clusterLookupNode s name with
          | none => .ok (s,unknownReply name)
          | some n => .ok ({ s with migratingSlotsTo := Function.update s.migratingSlotsTo slot (some n) },.ok)
      | .importing name =>
        if s.slots slot = some s.myself then
          .ok (s,.error [.text "I'm already the owner of hash slot ",.slot slot])
        else
          match clusterLookupNode s name with
          | none => .ok (s,unknownReply name)
          | some n => .ok ({ s with importingSlotsFrom := Function.update s.importingSlotsFrom slot (some n) },.ok)
      | .stable => .ok (clearMigrating (clearImporting s slot) slot,.ok)
      | .node name =>
        match clusterLookupNode s name with
        | none => .ok (s,.error [.text "Unknown node ",.name name])
        | some n => do
          let s ← setslotNode s slot n
          .ok (s,.ok)
      | .other => .ok (s,actionReply)

inductive SetallslotAction where
  | migrating
  | importing
  | stable
  | node
  | other

def moveOne (source target : NodePtr) (s : ClusterState) (slot : Slot) : Run ClusterState := do
  let sourceBit ← nodeGetSlotBit s source slot
  let targetBit ← nodeGetSlotBit s target slot
  if sourceBit = false ∧ targetBit = false then .ok s else
    let s := if (s.migratingSlotsTo slot).isSome then clearMigrating s slot else s
    let s ← reassignSlot s target slot
    if target = s.myself ∧ (s.importingSlotsFrom slot).isSome then .ok (clearImporting s slot) else .ok s

def markAll (p : NodePtr) (mark : ClusterState → Slot → ClusterState) (s : ClusterState) : Run ClusterState :=
  sweep (fun s slot => do
    if ← nodeGetSlotBit s p slot then .ok (mark s slot) else .ok s) s

def setallslotTo (s : ClusterState) (action : SetallslotAction) (source target : NodePtr) :
    Run (ClusterState × Reply) :=
  match action with
  | .migrating => do
    let s ← markAll source (fun s slot =>
      { s with migratingSlotsTo := Function.update s.migratingSlotsTo slot (some target) }) s
    .ok (s,.ok)
  | .importing => do
    let s ← markAll source (fun s slot =>
      { s with importingSlotsFrom := Function.update s.importingSlotsFrom slot (some source) }) s
    .ok (s,.ok)
  | .stable => do
    let s ← markAll source (fun s slot => clearMigrating (clearImporting s slot) slot) s
    .ok (s,.ok)
  | .node => do
    let s ← sweep (moveOne source target) s
    .ok (s,.ok)
  | .other => .ok (s,actionReply)

def setallslot (s : ClusterState) (action : SetallslotAction) (source target : NodeName) :
    Run (ClusterState × Reply) := do
  let me ← s.deref s.myself
  if me.flags.slave then .ok (s,replicaReply) else
    match clusterLookupNode s source with
    | none => .ok (s,unknownReply source)
    | some a =>
      match clusterLookupNode s target with
      | none => .ok (s,unknownReply target)
      | some b => setallslotTo s action a b

end HpuCache.SlotCommands
