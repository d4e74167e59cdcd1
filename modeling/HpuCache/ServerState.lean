import HpuCache.CommandCache

/-! The part of the server that `processCommand` reads and writes: the cluster
state with its hot slots, one client connection, the command table and the
conditions of the moment that the function reads but does not change. -/
namespace HpuCache.ServerState
open ByteText KeySlot KeyedDict CommandCache

structure ClusterState where
  myself : NodeId
  stateOk : Bool
  slots : Slot → Option NodeId
  migratingSlotsTo : Slot → Option NodeId
  importingSlotsFrom : Slot → Option NodeId
  isSlave : Bool
  slaveof : Option NodeId
  slotStatus : Slot → SlotState
  isSync : Bool
  syncTime : Bool
  forwardTime : Bool

/-- A node as it starts, in a cluster whose slots all belong to one owner. -/
def ClusterState.initial (owner myself : NodeId) : ClusterState :=
  ⟨myself,true,fun _ => some owner,fun _ => none,fun _ => none,false,none,fun _ => .zeroed,
    true,false,false⟩

def ClusterState.setSlot (cl : ClusterState) (slot : Slot) (st : SlotState) : ClusterState :=
  { cl with slotStatus := fun s => if s = slot then st else cl.slotStatus s }

@[simp] theorem setSlotSame (cl : ClusterState) (slot : Slot) (st : SlotState) :
    (cl.setSlot slot st).slotStatus slot = st := if_pos rfl
theorem setSlotOther (cl : ClusterState) {slot s : Slot} (st : SlotState) (other : s ≠ slot) :
    (cl.setSlot slot st).slotStatus s = cl.slotStatus s := if_neg other
@[simp] theorem setSlotMyself (cl : ClusterState) (slot : Slot) (st : SlotState) :
    (cl.setSlot slot st).myself = cl.myself := rfl
@[simp] theorem setSlotSlots (cl : ClusterState) (slot : Slot) (st : SlotState) :
    (cl.setSlot slot st).slots = cl.slots := rfl
@[simp] theorem setSlotIsSync (cl : ClusterState) (slot : Slot) (st : SlotState) :
    (cl.setSlot slot st).isSync = cl.isSync := rfl
@[simp] theorem setSlotSyncTime (cl : ClusterState) (slot : Slot) (st : SlotState) :
    (cl.setSlot slot st).syncTime = cl.syncTime := rfl

theorem setSlotIdle (cl : ClusterState) (slot : Slot) : cl.setSlot slot (cl.slotStatus slot) = cl := by
  cases cl
  simp only [ClusterState.setSlot,ClusterState.mk.injEq,true_and,and_true]
  funext s
  split
  · rename_i same; rw [same]
  · rfl

/-- The command procedures that `processCommand` and `getNodeByQuery` tell apart. -/
inductive Proc where
  | exec | discard | multi | watch | unwatch | reset | ping | subscribe | unsubscribe
  | psubscribe | punsubscribe | auth | hello | replconf | shutdown | script | eval | evalSha
  | migrate | other
  deriving DecidableEq, Repr

structure RedisCommand where
  name : Bytes
  proc : Proc
  arity : Int
  write : Bool
  denyoom : Bool
  stale : Bool
  loading : Bool
  mayReplicate : Bool
  asking : Bool
  noAuth : Bool
  fromModule : Bool
  moduleGetkeys : Option ((argv : List Bytes) → List (Fin argv.length))
  getkeysProc : Option ((argv : List Bytes) → List (Fin argv.length))
  firstkey : Nat
  lastkey : Int
  keystep : Nat

def cmdHasMovableKeys (cmd : RedisCommand) : Bool :=
  (cmd.getkeysProc.isSome && !cmd.fromModule) || cmd.moduleGetkeys.isSome

/-- The key positions of the command table; `none` is the server panic on a table
whose positions do not match the arity. -/
def getKeysUsingCommandTable (cmd : RedisCommand) (argv : List Bytes) :
    Option (List (Fin argv.length)) :=
  if cmd.firstkey = 0 then some [] else
    let last : Int := if cmd.lastkey < 0 then argv.length + cmd.lastkey else cmd.lastkey
    let count : Nat := if last < cmd.firstkey then 0 else ((last - cmd.firstkey) / cmd.keystep + 1).toNat
    let positions := (List.range count).map (fun i => cmd.firstkey + i * cmd.keystep)
    if positions.any (fun j => argv.length ≤ j) then
      if cmd.fromModule || cmd.arity < 0 then some [] else none
    else some (positions.filterMap (fun j => if h : j < argv.length then some ⟨j,h⟩ else none))

def getKeysFromCommand (cmd : RedisCommand) (argv : List Bytes) : Option (List Bytes) :=
  match cmd.moduleGetkeys with
  | some keys => some ((keys argv).map argv.get)
  | none =>
    match cmd.fromModule, cmd.getkeysProc with
    | false, some keys => some ((keys argv).map argv.get)
    | _, _ => (getKeysUsingCommandTable cmd argv).map (fun keys => keys.map argv.get)

structure Queued where
  cmd : RedisCommand
  argv : List Bytes

structure Client where
  master : Bool
  slave : Bool
  multi : Bool
  dirtyExec : Bool
  dirtyCas : Bool
  sync : Bool
  asking : Bool
  readonly : Bool
  pubsub : Bool
  -- CLIENT_LUA with a caller that is our master.
  luaOfMaster : Bool
  resp2 : Bool
  authenticated : Bool
  noForwardHotSlot : List Int
  mstate : List Queued

def Client.fresh : Client :=
  ⟨false,false,false,false,false,false,false,false,false,false,true,false,[],[]⟩

def discardTransaction (c : Client) : Client :=
  { c with mstate := [], multi := false, dirtyCas := false, dirtyExec := false }

def flagTransaction (c : Client) : Client := if c.multi then { c with dirtyExec := true } else c

inductive RedirCode where
  | crossSlot | unstable | ask | moved | downState | downUnbound | downRoState
  deriving DecidableEq, Repr

inductive DiskError where | none | rdb | aof
  deriving DecidableEq, Repr

inductive ClientPause where | off | write | all
  deriving DecidableEq, Repr

structure Env where
  clusterEnabled : Bool
  commands : Bytes → Option RedisCommand
  -- The default user is flagged nopass and is not disabled.
  defaultUserOpen : Bool
  aclCheckAllPerm : Client → RedisCommand → List Bytes → Bool
  noRedirection : Bool
  allowReadsWhenDown : Bool
  lookupKeyRead : Bytes → Bool
  ustime : Ustime
  -- Iteration orders of the two flushes one command may cause.
  syncOrder : IterOrder CacheOps
  writeOrder : IterOrder CacheOps
  -- Draws of the random member, and the last draw of `getForwardAim`.
  draws : List Nat
  rand : Nat
  -- What the stack cell of `hashslot` holds before the query.
  stack : Int
  maxmemory : Bool
  evictFail : Bool
  currentClientFreed : Bool
  diskError : DiskError
  masterhost : Bool
  replMinSlavesToWrite : Nat
  replMinSlavesMaxLag : Nat
  replGoodSlavesCount : Nat
  masterConnected : Bool
  serveStaleData : Bool
  loading : Bool
  luaTimedout : Bool
  clientPause : ClientPause

inductive Rejection where
  | unknownCommand (name : Bytes) | wrongArity (name : Bytes) | noauth | noperm
  | oom | bgsave | aofWrite | noReplicas | pubsub (name : Bytes) | masterDown | loading | slowScript
  deriving DecidableEq, Repr

def Rejection.text : Rejection → String
  | .unknownCommand _ => "unknown command"
  | .wrongArity _ => "wrong number of arguments for command"
  | .noauth => "-NOAUTH Authentication required."
  | .noperm => "-NOPERM this user has no permissions"
  | .oom => "-OOM command not allowed when used memory > 'maxmemory'."
  | .bgsave => "-MISCONF Redis is configured to save RDB snapshots, but it is currently not able to persist on disk."
  | .aofWrite => "-MISCONF Errors writing to the AOF file"
  | .noReplicas => "-NOREPLICAS Not enough good replicas to write."
  | .pubsub _ => "only (P)SUBSCRIBE / (P)UNSUBSCRIBE / PING / QUIT / RESET are allowed in this context"
  | .masterDown => "-MASTERDOWN Link with MASTER is down and replica-serve-stale-data is set to 'no'."
  | .loading => "-LOADING Redis is loading the dataset in memory"
  | .slowScript => "-BUSY Redis is busy running a script. You can only call SCRIPT KILL or SHUTDOWN NOSAVE."

inductive Redirection where
  | error (text : String)
  | moved (slot : Int) (node : NodeId)
  | ask (slot : Int) (node : NodeId)
  deriving DecidableEq

/-- One call of `broadcastCommandInHotGroup`: whom the slot was related to, what
was sent, and which entries the call left behind. -/
structure Flush where
  members : List NodeId
  sends : List Send
  left : List CacheOps

inductive Effect where
  | cached (slot : Slot) (op : CacheOps)
  | flushed (slot : Slot) (flush : Flush)

def Effect.slot : Effect → Slot
  | .cached slot _ => slot
  | .flushed slot _ => slot

def Effect.sends : Effect → List Send
  | .cached _ _ => []
  | .flushed _ f => f.sends

/-- The value of the local variable `hashslot` after the query. -/
inductive HashSlot where
  | stored (slot : Slot)
  | unset (stack : Int)
  deriving DecidableEq, Repr

def HashSlot.index : HashSlot → Int
  | .stored slot => slot.val
  | .unset stack => stack

/-- The entry of `slot_status` that the variable selects; `none` is outside the array. -/
def HashSlot.slot? (h : HashSlot) : Option Slot :=
  if bound : 0 ≤ h.index ∧ h.index < 16384 then some ⟨h.index.toNat,by omega⟩ else none

@[simp] theorem storedSlot? (slot : Slot) : (HashSlot.stored slot).slot? = some slot := by
  have below := slot.isLt
  unfold HashSlot.slot?
  split
  · exact congrArg some (Fin.ext (Int.toNat_natCast slot.val))
  · rename_i outside
    exact absurd ⟨Int.natCast_nonneg _,Int.ofNat_lt.mpr below⟩ outside

inductive Fault where
  -- An argument is read past the end of the vector.
  | argvOutOfRange
  -- `slot_status` is read outside its 16384 entries.
  | slotOutOfRange
  -- A failed assertion, `serverPanic`, or a null pointer that is followed.
  | panic
  -- `server.cluster` is followed in a server without cluster mode.
  | nullCluster
  deriving DecidableEq, Repr

inductive Exit where
  | quit
  | dropped
  | faulted (fault : Fault)
  | spinning
  | rejected (why : Rejection)
  | redirected (answer : Redirection)
  | clientFreed
  | paused
  | queued
  | called (cmd : RedisCommand) (argv : List Bytes)

end HpuCache.ServerState
