import HpuCache.GroupCommands
import HpuCache.NodeQuery

/-! `processCommand`: the magic word of forwarded commands, the checks before the
cluster block, the hot-slot branches between the slot query and its error check,
and the long tail of refusals before a command is queued or called. -/
namespace HpuCache.ProcessCommand
open ByteText KeySlot KeyedDict CommandCache ServerState GroupCommands NodeQuery

def textQuit : Bytes := [113,117,105,116]
def textRestore : Bytes := [82,69,83,84,79,82,69]
def textMigrate : Bytes := [77,73,71,82,65,84,69]

inductive Magic where
  | plain
  | fault
  | stale
  | inner (argv : List Bytes)

/-- The branch of the magic word. The stamp and the key are read from fixed positions. -/
def magicBranch (cachedOp : Slot → OpDict) (argv : List Bytes) : Magic :=
  match argv with
  | [] => .fault
  | word :: _ =>
    if strncmpEqual word magicWord 6 then
      match argv[1]?, argv[3]? with
      | some stamp, some key =>
        match (cachedOp (keyHashSlot key)).find key with
        | some op => if strtoll op.stamp > strtoll stamp then .stale else .inner (argv.drop 2)
        | none => .inner (argv.drop 2)
      | _, _ => .fault
    else .plain

/-- A member other than this node is drawn again; `none` while the loop still runs. -/
def drawOther (related : Roster) (myself : NodeId) : List Nat → Option NodeId
  | [] => none
  | r :: rest =>
    match related.entries[r % related.size]? with
    | none => none
    | some node => if node = myself then drawOther related myself rest else some node

def getForwardAim (env : Env) (cl : ClusterState) (related : Roster) : Option NodeId :=
  match env.draws with
  | [] => none
  | r :: rest => do
    let node ← related.entries[r % related.size]?
    if cl.forwardTime then
      let other ← drawOther related cl.myself rest
      if env.rand % (related.size * 2 + 1) = 0 then some cl.myself else some other
    else some node

structure Outcome where
  cluster : ClusterState
  client : Client
  effects : List Effect
  -- The index with which `slot_status` was read and changed, if it was.
  touched : Option HashSlot
  exit : Exit

def isMigrate (argv : List Bytes) : Bool :=
  strncmpEqual (argv.headD []) textRestore 7 || strncmpEqual (argv.headD []) textMigrate 7

def clusterGuard (env : Env) (c : Client) (cmd : RedisCommand) (argv : List Bytes) : Bool :=
  env.clusterEnabled && !c.master && !isMigrate argv && !c.sync && !c.luaOfMaster &&
    !(!cmdHasMovableKeys cmd && cmd.firstkey = 0 && cmd.proc ≠ .exec)

def addWrite (env : Env) (slot : Slot) (argv : List Bytes) (st : SlotState) :
    Option (SlotState × List Effect) := do
  let op ← cacheOps env.ustime argv
  let st ← addCmdToCache env.ustime argv st
  some (st,[.cached slot op])

/-- While the slot is being copied, write commands are cached. -/
def copyingCache (env : Env) (slot : Slot) (isWrite : Bool) (argv : List Bytes) (st : SlotState) :
    Option (SlotState × List Effect) :=
  if st.haveCopy && st.isCopying && isWrite then addWrite env slot argv st else some (st,[])

/-- After the copy the cached commands are sent once. -/
def oneTimeSync (env : Env) (myself : NodeId) (slot : Slot) (st : SlotState) : SlotState × List Effect :=
  if !st.isSynced && st.isCopied && st.haveCopy then
    let flushed := flushIfCounted env.syncOrder myself slot st
    ({ flushed.1 with isSynced := true },flushed.2)
  else (st,[])

inductive Forward where
  | no
  | stay
  | away (node : NodeId)
  | spin

def forwardBranch (env : Env) (cl : ClusterState) (isOwner isNoForward : Bool) (st : SlotState) : Forward :=
  if isOwner && st.isCopied && !isNoForward && st.isSynced && st.relatedIns.size > 0 && st.haveCopy then
    match getForwardAim env cl st.relatedIns with
    | none => .spin
    | some node => if node = cl.myself then .stay else .away node
  else .no

/-- A write on a copied slot is cached, and sent at once in the immediate mode. -/
def copiedWrite (env : Env) (cl : ClusterState) (slot : Slot) (isWrite : Bool) (argv : List Bytes)
    (st : SlotState) : Option (SlotState × List Effect) :=
  if isWrite && cl.isSync then do
    let (st,added) ← addWrite env slot argv st
    if cl.syncTime then some (st,added)
    else
      let flushed := flushSlot env.writeOrder cl.myself slot st
      some (flushed.1,added ++ flushed.2)
  else some (st,[])

def isOwner (cl : ClusterState) (slot : Slot) : Bool := decide (cl.slots slot = some cl.myself)

def isCopyInstance (cl : ClusterState) (slot : Slot) : Bool :=
  (cl.slotStatus slot).relatedIns.has cl.myself && !isOwner cl slot

def isNoForward (c : Client) (slot : Slot) : Bool := c.noForwardHotSlot.contains (slot.val : Int)

structure Block where
  cluster : ClusterState
  client : Client
  effects : List Effect
  -- `none` goes on to the checks below the cluster block.
  stop : Option Exit

def noForward (c : Client) (slot : Slot) : Client :=
  { c with noForwardHotSlot := (slot.val : Int) :: c.noForwardHotSlot }

def redirectClient (c : Client) (cmd : RedisCommand) : Client :=
  if cmd.proc = .exec then discardTransaction c else flagTransaction c

/-- From the forward decision on: serve a copied slot, or give the answer of the query. -/
def serveOrRedirect (env : Env) (cl : ClusterState) (c : Client) (cmd : RedisCommand) (argv : List Bytes)
    (q : Query) (slot : Slot) (st : SlotState) (effects : List Effect) : Block :=
  if st.isCopied && (isCopyInstance cl slot || (isOwner cl slot && isNoForward c slot)) then
    match copiedWrite env cl slot (isWriteCommand c cmd) argv st with
    | none => ⟨cl.setSlot slot st,c,effects,some (.faulted .argvOutOfRange)⟩
    | some (st,more) =>
      ⟨cl.setSlot slot { st with dealedOps := st.dealedOps + 1 },c,effects ++ more,none⟩
  else if q.node ≠ some cl.myself then
    ⟨cl.setSlot slot st,redirectClient c cmd,effects,
      some (match clusterRedirectClient q.node slot.val q.code with
        | some answer => .redirected answer
        | none => .faulted .panic)⟩
  else ⟨cl.setSlot slot { st with dealedOps := st.dealedOps + 1 },c,effects,none⟩

def hotSlotBranches (env : Env) (cl : ClusterState) (c : Client) (cmd : RedisCommand) (argv : List Bytes)
    (q : Query) (slot : Slot) : Block :=
  match copyingCache env slot (isWriteCommand c cmd) argv (cl.slotStatus slot) with
  | none => ⟨cl,c,[],some (.faulted .argvOutOfRange)⟩
  | some (st,cachedNow) =>
    let synced := oneTimeSync env cl.myself slot st
    let effects := cachedNow ++ synced.2
    match forwardBranch env cl (isOwner cl slot) (isNoForward c slot) synced.1 with
    | .spin => ⟨cl.setSlot slot synced.1,c,effects,some .spinning⟩
    | .away node =>
      ⟨cl.setSlot slot synced.1,c,effects,some (.redirected (.moved slot.val node))⟩
    | .stay => serveOrRedirect env cl (noForward c slot) cmd argv q slot synced.1 effects
    | .no => serveOrRedirect env cl c cmd argv q slot synced.1 effects

def Query.variable (env : Env) (q : Query) : HashSlot :=
  match q.hashslot with
  | some slot => .stored slot
  | none => .unset env.stack

def isDenyoomCommand (c : Client) (cmd : RedisCommand) : Bool :=
  cmd.denyoom || (cmd.proc = .exec && c.mstate.any (fun q => q.cmd.denyoom))
def isDenystaleCommand (c : Client) (cmd : RedisCommand) : Bool :=
  !cmd.stale || (cmd.proc = .exec && c.mstate.any (fun q => !q.cmd.stale))
def isDenyloadingCommand (c : Client) (cmd : RedisCommand) : Bool :=
  !cmd.loading || (cmd.proc = .exec && c.mstate.any (fun q => !q.cmd.loading))
def isMayReplicateCommand (c : Client) (cmd : RedisCommand) : Bool :=
  (cmd.write || cmd.mayReplicate) ||
    (cmd.proc = .exec && c.mstate.any (fun q => q.cmd.write || q.cmd.mayReplicate))

def secondArgumentStarts (argv : List Bytes) (letter : UInt8) : Bool :=
  argv.length = 2 && toLower ((argv.getD 1 []).headD 0) == letter

/-- Commands that run although a script has timed out. -/
def allowedDuringSlowScript (cmd : RedisCommand) (argv : List Bytes) : Bool :=
  cmd.proc ∈ [.auth,.hello,.replconf,.multi,.discard,.watch,.unwatch,.reset] ||
  (cmd.proc = .shutdown && secondArgumentStarts argv 110) ||
  (cmd.proc = .script && secondArgumentStarts argv 107)

/-- A check between the cluster block and the execution, and how the function leaves when it holds. -/
structure LaterCheck where
  holds : Bool
  exit : Exit

section laterChecks
variable (env : Env) (c : Client) (cmd : RedisCommand) (argv : List Bytes)

def freedWhileEvicting : Bool := env.maxmemory && !env.luaTimedout && env.currentClientFreed
def outOfMemory : Bool :=
  env.maxmemory && !env.luaTimedout && env.evictFail &&
    (isDenyoomCommand c cmd || (c.multi && cmd.proc ∉ [.exec,.discard,.reset]))
def denyWriteByDiskError : Bool :=
  env.diskError ≠ .none && !env.masterhost && (isWriteCommand c cmd || cmd.proc = .ping)
def tooFewReplicas : Bool :=
  !env.masterhost && env.replMinSlavesToWrite ≠ 0 && env.replMinSlavesMaxLag ≠ 0 &&
    isWriteCommand c cmd && env.replGoodSlavesCount < env.replMinSlavesToWrite
def inPubsubMode : Bool :=
  c.pubsub && c.resp2 && cmd.proc ∉ [.ping,.subscribe,.unsubscribe,.psubscribe,.punsubscribe,.reset]
def masterIsDown : Bool :=
  env.masterhost && !env.masterConnected && !env.serveStaleData && isDenystaleCommand c cmd
def isLoading : Bool := env.loading && isDenyloadingCommand c cmd
def scriptIsSlow : Bool := env.luaTimedout && !allowedDuringSlowScript cmd argv
def clientsPaused : Bool :=
  !c.slave && (env.clientPause = .all || (env.clientPause = .write && isMayReplicateCommand c cmd))
def queuesInMulti : Bool := c.multi && cmd.proc ∉ [.exec,.discard,.multi,.watch,.reset]

def laterChecks : List LaterCheck := [
  ⟨freedWhileEvicting env,.clientFreed⟩,
  ⟨outOfMemory env c cmd,.rejected .oom⟩,
  ⟨denyWriteByDiskError env c cmd,.rejected (if env.diskError = .rdb then .bgsave else .aofWrite)⟩,
  ⟨tooFewReplicas env c cmd,.rejected .noReplicas⟩,
  ⟨inPubsubMode c cmd,.rejected (.pubsub cmd.name)⟩,
  ⟨masterIsDown env c cmd,.rejected .masterDown⟩,
  ⟨isLoading env c cmd,.rejected .loading⟩,
  ⟨scriptIsSlow env cmd argv,.rejected .slowScript⟩,
  ⟨clientsPaused env c cmd,.paused⟩,
  ⟨queuesInMulti c cmd,.queued⟩]

def laterExit : Option Exit := ((laterChecks env c cmd argv).find? LaterCheck.holds).map LaterCheck.exit

end laterChecks

/-- `rejectCommand`: a transaction is flagged, and an EXEC aborts it. -/
def rejectClient (c : Client) (cmd : RedisCommand) : Client :=
  if cmd.proc = .exec then discardTransaction (flagTransaction c) else flagTransaction c

def queueMultiCommand (c : Client) (cmd : RedisCommand) (argv : List Bytes) : Client :=
  if c.dirtyExec then c else { c with mstate := c.mstate ++ [⟨cmd,argv⟩] }

def leaveClient (c : Client) (cmd : RedisCommand) (argv : List Bytes) : Exit → Client
  | .rejected _ => rejectClient c cmd
  | .queued => queueMultiCommand c cmd argv
  | _ => c

/-- The rest of the function, with the command reaching `call` when nothing refuses it. -/
def callOrRefuse (env : Env) (cl : ClusterState) (c : Client) (cmd : RedisCommand) (argv : List Bytes)
    (effects : List Effect) (touched : Option HashSlot) : Outcome :=
  match laterExit env c cmd argv with
  | some exit => ⟨cl,leaveClient c cmd argv exit,effects,touched,exit⟩
  | none => ⟨cl,c,effects,touched,.called cmd argv⟩

def afterBlock (env : Env) (cmd : RedisCommand) (argv : List Bytes) (selected : HashSlot) (block : Block) :
    Outcome :=
  match block.stop with
  | some exit => ⟨block.cluster,block.client,block.effects,some selected,exit⟩
  | none => callOrRefuse env block.cluster block.client cmd argv block.effects (some selected)

def clusterBlock (env : Env) (cl : ClusterState) (c : Client) (cmd : RedisCommand) (argv : List Bytes) :
    Outcome :=
  match getNodeByQuery env cl c cmd argv with
  | none => ⟨cl,c,[],none,.faulted .panic⟩
  | some q =>
    match (Query.variable env q).slot? with
    | none => ⟨cl,c,[],some (Query.variable env q),.faulted .slotOutOfRange⟩
    | some slot => afterBlock env cmd argv (Query.variable env q) (hotSlotBranches env cl c cmd argv q slot)

def wrongArity (cmd : RedisCommand) (argv : List Bytes) : Bool :=
  (cmd.arity > 0 && cmd.arity ≠ argv.length) || decide ((argv.length : Int) < -cmd.arity)

def dispatch (env : Env) (cl : ClusterState) (c : Client) (argv : List Bytes) : Outcome :=
  match env.commands (argv.headD []) with
  | none => ⟨cl,flagTransaction c,[],none,.rejected (.unknownCommand (argv.headD []))⟩
  | some cmd =>
    if wrongArity cmd argv then ⟨cl,rejectClient c cmd,[],none,.rejected (.wrongArity cmd.name)⟩
    else if !env.defaultUserOpen && !c.authenticated && !cmd.noAuth then
      ⟨cl,rejectClient c cmd,[],none,.rejected .noauth⟩
    else if !env.aclCheckAllPerm c cmd argv then ⟨cl,rejectClient c cmd,[],none,.rejected .noperm⟩
    else if clusterGuard env c cmd argv then clusterBlock env cl c cmd argv
    else callOrRefuse env cl c cmd argv [] none

/-- What comes after the branch of the magic word has followed `server.cluster`, a null pointer without cluster mode. -/
def followCluster (env : Env) (cl : ClusterState) (c : Client) (out : Outcome) : Outcome :=
  if env.clusterEnabled then out else ⟨cl,{ c with sync := true },[],none,.faulted .nullCluster⟩

theorem followWay {p : Outcome → Prop} {env : Env} {cl : ClusterState} {c : Client} {out : Outcome} (passed : p out)
    (null : p ⟨cl,{ c with sync := true },[],none,.faulted .nullCluster⟩) : p (followCluster env cl c out) := by
  rw [followCluster]
  split
  · exact passed
  · exact null

def processCommand (env : Env) (cl : ClusterState) (c : Client) (argv : List Bytes) : Outcome :=
  if strcasecmpEqual (argv.headD []) textQuit then ⟨cl,c,[],none,.quit⟩ else
  match magicBranch (fun slot => (cl.slotStatus slot).cachedOp) argv with
  | .plain => dispatch env cl c argv
  | .fault => ⟨cl,{ c with sync := true },[],none,.faulted .argvOutOfRange⟩
  | .stale => followCluster env cl c ⟨cl,{ c with sync := true },[],none,.dropped⟩
  | .inner inner => followCluster env cl c (dispatch env cl { c with sync := true } inner)

end HpuCache.ProcessCommand
