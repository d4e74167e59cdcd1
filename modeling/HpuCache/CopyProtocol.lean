import HpuCache.EventRun
import HpuCache.MemberStep
import HpuCache.SlotMove

/-! Copying a slot to another node of its group: SETSLOT COPYING at the owner, pages of
MIGRATE with COPY, and SETSLOT FINCOPY, while clients go on writing at the owner. Every
value carries the moments of the commands that made it, so it shows what it reflects. -/
namespace HpuCache.CopyProtocol
open ByteText KeySlot KeyedDict CommandCache ServerState GroupCommands ProcessCommand MemberStep SlotIndex SlotMove

variable {Value : Type}

/-- What the data commands do: the keys a command writes, and what it leaves under each of them. -/
structure DataCommands (Value : Type) where
  writes : List Bytes → List Bytes
  result : List Bytes → (Bytes → Option Value) → Bytes → Option Value

/-- A value and the moments of the commands that made it, in the order in which they were applied. -/
abbrev Dated (Value : Type) := Value × List Nat

/-- The data of both ends, with the moments of the commands that left a key without a value. -/
structure Sides (Value : Type) where
  ends : Ends (Dated Value)
  sourceBuried : Bytes → List Nat
  targetBuried : Bytes → List Nat

def logOf (found : Option (Bytes × Dated Value)) (buried : List Nat) : List Nat :=
  match found with
  | some e => e.2.2
  | none => buried

def Sides.sourceLog (d : Sides Value) (key : Bytes) : List Nat :=
    logOf (d.ends.source.store.find key) (d.sourceBuried key)
def Sides.targetLog (d : Sides Value) (key : Bytes) : List Nat := logOf (d.ends.target.find key) (d.targetBuried key)

section running
variable (cmds : DataCommands Value) (moment : Nat)

def runAtSource (d : Sides Value) (argv : List Bytes) : Sides Value :=
  let log := fun key => d.sourceLog key ++ [moment]
  let result := cmds.result argv fun key => (d.ends.source.store.find key).map fun e => e.2.1
  let source := (cmds.writes argv).foldl (fun db key =>
    match result key with
    | some v => db.setKey (key,v,log key)
    | none => db.dbDelete key) d.ends.source
  { d with
    ends := ⟨source,d.ends.target⟩
    sourceBuried := fun key => if key ∈ cmds.writes argv then log key else d.sourceBuried key }

def runAtTarget (d : Sides Value) (argv : List Bytes) : Sides Value :=
  let log := fun key => d.targetLog key ++ [moment]
  let result := cmds.result argv fun key => (d.ends.target.find key).map fun e => e.2.1
  let target := (cmds.writes argv).foldl (fun store key =>
    match result key with
    | some v => store.replace (key,v,log key)
    | none => store.delete key) d.ends.target
  { d with
    ends := ⟨d.ends.source,target⟩
    targetBuried := fun key => if key ∈ cmds.writes argv then log key else d.targetBuried key }

end running

/-- The commands that reach the data when a client's command is called: those of its transaction at EXEC. -/
def executedBy (c : Client) : Exit → List (List Bytes)
  | .called cmd argv =>
    if cmd.proc = .exec then if c.dirtyExec || c.dirtyCas then [] else c.mstate.map Queued.argv else [argv]
  | _ => []

def ranBy (cl : ClusterState) : MemberEvent → List (List Bytes)
  | .command env c argv => executedBy c (processCommand env cl c argv).exit
  | _ => []

structure Waiting where
  slot : Slot
  op : CacheOps
  moment : Nat

structure Sent where
  op : CacheOps
  moment : Nat

structure Copy (Value : Type) where
  owner : ClusterState
  target : ClusterState
  data : Sides Value
  waiting : List Waiting
  -- What the owner has sent to the target, oldest first.
  wire : List Sent
  clock : Nat
  -- The writes accepted in the copy that is going on: when, and on which key.
  accepted : List (Nat × Bytes)
  -- Those of them that no page has carried to the target.
  pending : List (Nat × Bytes)
  -- The writes accepted in the copies that are finished.
  finished : List (Nat × Bytes)

def momentOf (waiting : List Waiting) (slot : Slot) (op : CacheOps) : Nat :=
  ((waiting.find? fun w => w.slot = slot ∧ w.op = op).map Waiting.moment).getD 0

def noteWaiting (moment : Nat) (waiting : List Waiting) : Effect → List Waiting
  | .cached slot op => ⟨slot,op,moment⟩ :: waiting
  | .flushed slot f => waiting.filter fun w => w.slot ≠ slot ∨ w.op ∈ f.left

def noteWire (target : NodeId) (waiting : List Waiting) (wire : List Sent) : Effect → List Sent
  | .cached _ _ => wire
  | .flushed slot f => wire ++ (sentTo target f.sends).map fun op => ⟨op,momentOf waiting slot op⟩

def note (moment : Nat) (target : NodeId) : List Effect → List Waiting → List Sent → List Waiting × List Sent
  | [],waiting,wire => (waiting,wire)
  | e :: rest,waiting,wire => note moment target rest (noteWaiting moment waiting e) (noteWire target waiting wire e)

inductive Event where
  | owner (event : MemberEvent)
  -- HOTGROUP, RUNMODE and the packets of the group at the target; clients write at the owner.
  | target (event : MemberEvent)
  | page (slot : Slot) (pipeline offset : Nat) (req : Request) (replace : Bool)
  | deliver (env : Env) (client : Client)

def MemberEvent.isCommand : MemberEvent → Bool
  | .command .. => true
  | _ => false

/-- The keys a forwarded command writes when it is run: the header and the stamp are taken off. -/
def touched (cmds : DataCommands Value) (op : CacheOps) : List Bytes := cmds.writes (op.argv.drop 2)

/-- No command on the key waits in the cache of the owner or on its way to the target. -/
def Copy.clear (cmds : DataCommands Value) (c : Copy Value) (key : Bytes) : Bool :=
  c.waiting.all (fun w => key ∉ touched cmds w.op) && c.wire.all (fun s => key ∉ touched cmds s.op)

def acceptedNow (cmds : DataCommands Value) (cl : ClusterState) (moment : Nat) (ran : List (List Bytes)) :
    List (Nat × Bytes) :=
  ran.flatMap fun argv => ((cmds.writes argv).filter fun key => (cl.slotStatus (keyHashSlot key)).isCopying).map
    fun key => (moment,key)

def Copy.finishes (c : Copy Value) : MemberEvent → Slot → Bool
  | .setslot true slot,s => slot = s && !c.owner.isSlave
  | _,_ => false

def step (nodes : List NodeId) (cmds : DataCommands Value) (c : Copy Value) : Event → Option (Copy Value)
  | .owner event =>
    match memberStep nodes c.owner event with
    | .error _ => none
    | .ok r =>
      let ran := ranBy c.owner event
      let noted := note c.clock c.target.myself r.effects c.waiting c.wire
      let new := acceptedNow cmds c.owner c.clock ran
      some { c with
        owner := r.cluster
        data := ran.foldl (runAtSource cmds c.clock) c.data
        waiting := noted.1
        wire := noted.2
        clock := c.clock + 1
        accepted := (c.accepted ++ new).filter fun p => !c.finishes event (keyHashSlot p.2)
        pending := (c.pending ++ new).filter fun p => !c.finishes event (keyHashSlot p.2)
        finished := c.finished ++ c.accepted.filter fun p => c.finishes event (keyHashSlot p.2) }
  | .target event =>
    if MemberEvent.isCommand event then none else
      match memberStep nodes c.target event with
      | .error _ => none
      | .ok r => some { c with target := r.cluster, clock := c.clock + 1 }
  | .page slot pipeline offset req replace =>
    let keys := getkeysinslot slot pipeline offset c.data.ends.source
    let data := { c.data with ends := (clusterManagerMigrateKeysInReply req replace true keys c.data.ends).1 }
    some { c with
      data := data
      clock := c.clock + 1
      pending := c.pending.filter fun p => !(c.clear cmds p.2 && data.targetLog p.2 = data.sourceLog p.2) }
  | .deliver env client =>
    match c.wire with
    | [] => none
    | sent :: rest =>
      -- The connection of a peer carries no transaction.
      if client.mstate ≠ [] then none else
        let out := processCommand env c.target client sent.op.argv
        some { c with
          target := out.cluster
          data := (executedBy client out.exit).foldl (runAtTarget cmds sent.moment) c.data
          wire := rest
          clock := c.clock + 1 }

/-- Nothing is cached, sent or copied yet, and the data are older than the run. -/
structure Fresh (c : Copy Value) : Prop where
  zeroed : ∀ s, c.owner.slotStatus s = .zeroed
  waiting : c.waiting = []
  wire : c.wire = []
  accepted : c.accepted = []
  pending : c.pending = []
  finished : c.finished = []
  source : ∀ key, c.data.sourceLog key = []
  target : ∀ key, c.data.targetLog key = []

/-- A write is part of the contents, and what was applied after it is later than it. -/
def Reflects (moment : Nat) (log : List Nat) : Prop :=
  ∃ before after, log = before ++ moment :: after ∧ ∀ u ∈ after, moment < u

/-- FINCOPY finds every write of the copy carried: a page has brought its key to the target after it,
when no other command on the key was cached or on its way. -/
def AllCarried (c : Copy Value) : Event → Prop
  | .owner event => ∀ p ∈ c.pending, c.finishes event (keyHashSlot p.2) = false
  | _ => True

end HpuCache.CopyProtocol
