import HpuCache.ProcessCommand

/-! The server of the consistency experiments: the same command path with its own magic
word, nine more flush periods in the cron job, and the run modes that select them.
Every effect of a command carries the place in the function that caused it. -/
namespace HpuCache.ConsistServer
open ByteText KeySlot KeyedDict ServerState GroupCommands NodeQuery ProcessCommand
open CommandCache hiding magicWord cacheOps addCmdToCache

/-- `WANGEP`; the entry keeps it without the terminating zero. -/
def magicWord : Bytes := [87,65,78,71,69,80]

def cacheOps (now : Ustime) (argv : List Bytes) : Option CacheOps :=
  if h : 2 ≤ argv.length then
    some ⟨magicWord :: now.text :: argv.map cstr,by simp; omega⟩
  else none

def addCmdToCache (now : Ustime) (argv : List Bytes) (st : SlotState) : Option (SlotState × CacheOps) := do
  let op ← cacheOps now argv
  some ({ st with cachedOp := st.cachedOp.replace op, cacheOpSize := st.cacheOpSize + 1 },op)

inductive Site where
  | copying
  | oneTimeSync
  | copiedBranch
  deriving DecidableEq

structure Sited where
  site : Site
  effect : Effect

def sited (site : Site) (effects : List Effect) : List Sited := effects.map (⟨site,·⟩)

structure Block where
  cluster : ClusterState
  client : Client
  effects : List Sited
  stop : Option Exit

structure Outcome where
  cluster : ClusterState
  client : Client
  effects : List Sited
  touched : Option HashSlot
  exit : Exit

def copyingCache (env : Env) (slot : Slot) (isWrite : Bool) (argv : List Bytes) (st : SlotState) :
    Option (SlotState × List Sited) :=
  if st.haveCopy && st.isCopying && isWrite then
    (addCmdToCache env.ustime argv st).map fun added => (added.1,sited .copying [.cached slot added.2])
  else some (st,[])

/-- A write on a copied slot is cached, and sent at once unless the one-second mode is on. -/
def copiedWrite (env : Env) (cl : ClusterState) (slot : Slot) (isWrite : Bool) (argv : List Bytes)
    (st : SlotState) : Option (SlotState × List Sited) :=
  if isWrite && cl.isSync then do
    let added ← addCmdToCache env.ustime argv st
    if cl.syncTime then some (added.1,sited .copiedBranch [.cached slot added.2])
    else
      let flushed := flushSlot env.writeOrder cl.myself slot added.1
      some (flushed.1,sited .copiedBranch (.cached slot added.2 :: flushed.2))
  else some (st,[])

def serveOrRedirect (env : Env) (cl : ClusterState) (c : Client) (cmd : RedisCommand) (argv : List Bytes)
    (q : Query) (slot : Slot) (st : SlotState) (effects : List Sited) : Block :=
  if st.isCopied && (isCopyInstance cl slot || (isOwner cl slot && isNoForward c slot)) then
    match copiedWrite env cl slot (isWriteCommand c cmd) argv st with
    | none => ⟨cl.setSlot slot st,c,effects,some (.faulted .argvOutOfRange)⟩
    | some (st,more) =>
      ⟨cl.setSlot slot { st with dealedOps := st.dealedOps + 1 },c,effects ++ more,none⟩
  else if q.node ≠ some cl.myself then
    ⟨cl.setSlot slot st,redirectClient c cmd,effects,
      some (match clusterRedirectClient q.node slot.val q.code with
        | some answer => .redirected answer
        | none => .faulted .panic)⟩
  else ⟨cl.setSlot slot { st with dealedOps := st.dealedOps + 1 },c,effects,none⟩

def hotSlotBranches (env : Env) (cl : ClusterState) (c : Client) (cmd : RedisCommand) (argv : List Bytes)
    (q : Query) (slot : Slot) : Block :=
  match copyingCache env slot (isWriteCommand c cmd) argv (cl.slotStatus slot) with
  | none => ⟨cl,c,[],some (.faulted .argvOutOfRange)⟩
  | some (st,cachedNow) =>
    let synced := oneTimeSync env cl.myself slot st
    let effects := cachedNow ++ sited .oneTimeSync synced.2
    match forwardBranch env cl (isOwner cl slot) (isNoForward c slot) synced.1 with
    | .spin => ⟨cl.setSlot slot synced.1,c,effects,some .spinning⟩
    | .away node => ⟨cl.setSlot slot synced.1,c,effects,some (.redirected (.moved slot.val node))⟩
    | .stay => serveOrRedirect env cl (noForward c slot) cmd argv q slot synced.1 effects
    | .no => serveOrRedirect env cl c cmd argv q slot synced.1 effects

def callOrRefuse (env : Env) (cl : ClusterState) (c : Client) (cmd : RedisCommand) (argv : List Bytes)
    (effects : List Sited) (touched : Option HashSlot) : Outcome :=
  match laterExit env c cmd argv with
  | some exit => ⟨cl,leaveClient c cmd argv exit,effects,touched,exit⟩
  | none => ⟨cl,c,effects,touched,.called cmd argv⟩

def afterBlock (env : Env) (cmd : RedisCommand) (argv : List Bytes) (selected : HashSlot) (block : Block) :
    Outcome :=
  match block.stop with
  | some exit => ⟨block.cluster,block.client,block.effects,some selected,exit⟩
  | none => callOrRefuse env block.cluster block.client cmd argv block.effects (some selected)

def clusterBlock (env : Env) (cl : ClusterState) (c : Client) (cmd : RedisCommand) (argv : List Bytes) :
    Outcome :=
  match getNodeByQuery env cl c cmd argv with
  | none => ⟨cl,c,[],none,.faulted .panic⟩
  | some q =>
    match (Query.variable env q).slot? with
    | none => ⟨cl,c,[],some (Query.variable env q),.faulted .slotOutOfRange⟩
    | some slot => afterBlock env cmd argv (Query.variable env q) (hotSlotBranches env cl c cmd argv q slot)

def dispatch (env : Env) (cl : ClusterState) (c : Client) (argv : List Bytes) : Outcome :=
  match env.commands (argv.headD []) with
  | none => ⟨cl,flagTransaction c,[],none,.rejected (.unknownCommand (argv.headD []))⟩
  | some cmd =>
    if wrongArity cmd argv then ⟨cl,rejectClient c cmd,[],none,.rejected (.wrongArity cmd.name)⟩
    else if !env.defaultUserOpen && !c.authenticated && !cmd.noAuth then
      ⟨cl,rejectClient c cmd,[],none,.rejected .noauth⟩
    else if !env.aclCheckAllPerm c cmd argv then ⟨cl,rejectClient c cmd,[],none,.rejected .noperm⟩
    else if clusterGuard env c cmd argv then clusterBlock env cl c cmd argv
    else callOrRefuse env cl c cmd argv [] none

def magicBranch (cachedOp : Slot → OpDict) (argv : List Bytes) : Magic :=
  if strncmpEqual (argv.headD []) magicWord 6 then
    match argv[1]?, argv[3]? with
    | some stamp, some key =>
      match (cachedOp (keyHashSlot key)).find key with
      | some op => if strtoll op.stamp > strtoll stamp then .stale else .inner (argv.drop 2)
      | none => .inner (argv.drop 2)
    | _, _ => .fault
  else .plain

def followCluster (env : Env) (cl : ClusterState) (c : Client) (out : Outcome) : Outcome :=
  if env.clusterEnabled then out else ⟨cl,{ c with sync := true },[],none,.faulted .nullCluster⟩

theorem followWay {p : Outcome → Prop} {env : Env} {cl : ClusterState} {c : Client} {out : Outcome} (passed : p out)
    (null : p ⟨cl,{ c with sync := true },[],none,.faulted .nullCluster⟩) : p (followCluster env cl c out) := by
  rw [followCluster]
  split
  · exact passed
  · exact null

def processCommand (env : Env) (cl : ClusterState) (c : Client) (argv : List Bytes) : Outcome :=
  if strcasecmpEqual (argv.headD []) textQuit then ⟨cl,c,[],none,.quit⟩ else
  match magicBranch (fun slot => (cl.slotStatus slot).cachedOp) argv with
  | .plain => dispatch env cl c argv
  | .fault => ⟨cl,{ c with sync := true },[],none,.faulted .argvOutOfRange⟩
  | .stale => followCluster env cl c ⟨cl,{ c with sync := true },[],none,.dropped⟩
  | .inner inner => followCluster env cl c (dispatch env cl { c with sync := true } inner)

structure ConsistState where
  cluster : ClusterState
  -- `sync_01` to `sync_09`.
  syncTenths : Nat → Bool
  -- The counter of `clusterCron`, an unsigned long long.
  iteration : Nat

inductive SyncWay where
  | no
  | second
  | immd
  | tenths (t : Nat)
  deriving DecidableEq

/-- The words of the nine cadences below a second, in the order of the comparisons. -/
def tenthWords : List (Bytes × Nat) :=
  ([48,57,115],9) :: [9,8,7,6,5,4,3,2,1].map fun t => ([48,48 + UInt8.ofNat t],t)

def syncWay (word : Bytes) : Option SyncWay :=
  if strcasecmpEqual word textNo then some .no
  else if strcasecmpEqual word text1s then some .second
  else if strcasecmpEqual word textImmd then some .immd
  else (tenthWords.find? fun w => strcasecmpEqual word w.1).map fun w => .tenths w.2

def selectSync (way : SyncWay) (st : ConsistState) : ConsistState :=
  match way with
  | .no => { st with cluster := { st.cluster with isSync := false, syncTime := false } }
  | .second => { st with cluster := { st.cluster with isSync := true, syncTime := true } }
  | .immd => { st with cluster := { st.cluster with isSync := true, syncTime := false } }
  | .tenths t =>
    { st with
      cluster := { st.cluster with isSync := true, syncTime := false }
      syncTenths := Function.update st.syncTenths t true }

/-- CLUSTER RUNMODE. -/
def runmodeCommand (syncWord forwardWord : Bytes) (st : ConsistState) : ConsistState × List String :=
  match syncWay syncWord with
  | none => (st,["Invalid sync way","OK"])
  | some way =>
    let st := selectSync way st
    let (cluster,errors) := setForwardWay forwardWord st.cluster
    ({ st with cluster := cluster },errors ++ ["OK"])

/-- The flags of the ten flush loops with their periods, in the order of the cron job. -/
def cronLoops (st : ConsistState) : List (Bool × Nat) :=
  (st.cluster.syncTime,10) :: [9,8,7,6,5,4,3,2,1].map fun t => (st.syncTenths t,t)

def cronLoop (iteration : Nat) (orders : Slot → IterOrder CacheOps) (loop : Bool × Nat) (cl : ClusterState) :
    ClusterState × List Effect :=
  if loop.1 && iteration % loop.2 = 0 then
    let flushed := fun slot => cronFlushSlot (orders slot) cl.myself slot (cl.slotStatus slot)
    ({ cl with slotStatus := fun slot => (flushed slot).1 },
      (List.finRange 16384).flatMap fun slot => (flushed slot).2)
  else (cl,[])

def runLoops (iteration : Nat) (orders : Nat → Slot → IterOrder CacheOps) :
    List (Bool × Nat) → ClusterState → ClusterState × List Effect
  | [], cl => (cl,[])
  | loop :: rest, cl =>
    let first := cronLoop iteration (orders loop.2) loop cl
    let later := runLoops iteration orders rest first.1
    (later.1,first.2 ++ later.2)

def clusterCron (orders : Nat → Slot → IterOrder CacheOps) (st : ConsistState) : ConsistState × List Effect :=
  let iteration := (st.iteration + 1) % 2 ^ 64
  let flushed := runLoops iteration orders (cronLoops st) st.cluster
  ({ st with cluster := flushed.1, iteration := iteration },flushed.2)

end HpuCache.ConsistServer
