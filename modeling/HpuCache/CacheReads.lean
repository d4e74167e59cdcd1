import HpuCache.CommandPath
import HpuCache.CommandTable

/-! What `addCmdToCache` reads of the command that it is called with. EXEC reaches it with a
vector of one element, and the second element of a command need not be its key. -/
namespace HpuCache.CacheReads
open ByteText KeySlot KeyedDict CommandCache ServerState NodeQuery ProcessCommand SlotTrace CommandPath CommandTable

/-- The two calls of `addCmdToCache` in the cluster block, each behind its own conditions. -/
inductive Reaches (env : Env) (cl : ClusterState) (c : Client) (cmd : RedisCommand) (argv : List Bytes) (slot : Slot) :
    Prop where
  | copying (on : ((cl.slotStatus slot).haveCopy && (cl.slotStatus slot).isCopying && isWriteCommand c cmd) = true)
  | copied {st cachedNow client} (before : copyingCache env slot (isWriteCommand c cmd) argv (cl.slotStatus slot) =
        some (st,cachedNow))
      (way : (forwardBranch env cl (isOwner cl slot) (isNoForward c slot) (oneTimeSync env cl.myself slot st).1 = .no ∧
          client = c) ∨
        (forwardBranch env cl (isOwner cl slot) (isNoForward c slot) (oneTimeSync env cl.myself slot st).1 = .stay ∧
          client = noForward c slot))
      (serves : servesAsCopy cl client slot = true) (on : (isWriteCommand c cmd && cl.isSync) = true)

def commandKeys (c : Client) (cmd : RedisCommand) (argv : List Bytes) : List Bytes :=
  (allKeys (queryCommands c cmd argv)).getD []

/-- No argument is read past the vector, and what is cached is cached under a key of the command. -/
structure CacheSafe (out : Outcome) (keys : List Bytes) : Prop where
  inside : out.exit ≠ .faulted .argvOutOfRange
  keyed : ∀ slot op, Effect.cached slot op ∈ out.effects → op.key ∈ keys

def FirstIsKey (argv keys : List Bytes) : Prop := ∃ key, argv[1]? = some key ∧ cstr key ∈ keys

section
variable {env : Env} {cl : ClusterState} {c : Client} {cmd : RedisCommand} {argv : List Bytes} {q : Query} {slot : Slot}
  {st : SlotState} {effects : List Effect}

theorem entryKey {now : Ustime} {op : CacheOps} (built : cacheOps now argv = some op) :
    ∃ key, argv[1]? = some key ∧ op.key = cstr key := by
  match argv,(cacheOpsShape built).1 with
  | word :: key :: rest,_ => exact ⟨key,rfl,cacheOpsKey built⟩

theorem addWriteLong (long : 2 ≤ argv.length) : ∃ op, cacheOps env.ustime argv = some op ∧
    addWrite env slot argv st = some (added op st,[.cached slot op]) := by
  obtain ⟨op,built⟩ := cacheOpsOf env.ustime long
  exact ⟨op,built,by simp [addWrite,addCmdToCache,built,added]⟩

theorem addWriteShort (short : ¬ 2 ≤ argv.length) : addWrite env slot argv st = none := by
  simp [addWrite,cacheOps,short]

theorem copyingLong (long : 2 ≤ argv.length) (isWrite : Bool) :
    ∃ r, copyingCache env slot isWrite argv st = some r := by
  obtain ⟨op,_,wrote⟩ := @addWriteLong env argv slot st long
  unfold copyingCache
  split
  · exact ⟨_,wrote⟩
  · exact ⟨_,rfl⟩

theorem copiedLong (long : 2 ≤ argv.length) (isWrite : Bool) :
    ∃ r, copiedWrite env cl slot isWrite argv st = some r := by
  obtain ⟨op,_,wrote⟩ := @addWriteLong env argv slot st long
  unfold copiedWrite
  split
  · simp only [wrote,bind,Option.bind_some]
    split <;> exact ⟨_,rfl⟩
  · exact ⟨_,rfl⟩

theorem copiedOn (on : (isWriteCommand c cmd && cl.isSync) = true) (long : 2 ≤ argv.length) :
    ∃ op b more, cacheOps env.ustime argv = some op ∧
      copiedWrite env cl slot (isWriteCommand c cmd) argv st = some (b,.cached slot op :: more) := by
  obtain ⟨op,built,wrote⟩ := @addWriteLong env argv slot st long
  simp only [copiedWrite,on,if_true,wrote,bind,Option.bind_some]
  split
  · exact ⟨op,_,[],built,rfl⟩
  · exact ⟨op,_,_,built,rfl⟩

theorem copiedShort (on : (isWriteCommand c cmd && cl.isSync) = true) (short : ¬ 2 ≤ argv.length) :
    copiedWrite env cl slot (isWriteCommand c cmd) argv st = none := by
  simp [copiedWrite,on,addWriteShort short]

theorem serveInside (long : 2 ≤ argv.length) :
    (serveOrRedirect env cl c cmd argv q slot st effects).stop ≠ some (.faulted .argvOutOfRange) := by
  obtain ⟨r,wrote⟩ := @copiedLong env cl argv slot st long (isWriteCommand c cmd)
  unfold serveOrRedirect
  simp only [wrote]
  split
  · nofun
  · split
    · dsimp only
      split <;> simp
    · nofun

theorem serveEffects {e : Effect} (inside : e ∈ effects) :
    e ∈ (serveOrRedirect env cl c cmd argv q slot st effects).effects := by
  unfold serveOrRedirect
  split
  · split
    · exact inside
    · exact List.mem_append_left _ inside
  · split <;> exact inside

theorem blockInside (long : 2 ≤ argv.length) :
    (hotSlotBranches env cl c cmd argv q slot).stop ≠ some (.faulted .argvOutOfRange) := by
  obtain ⟨⟨b,es⟩,first⟩ := @copyingLong env argv slot (cl.slotStatus slot) long (isWriteCommand c cmd)
  simp only [hotSlotBranches,first]
  split
  · simp
  · simp
  · exact serveInside long
  · exact serveInside long

theorem serveServed (copied : st.isCopied = (cl.slotStatus slot).isCopied) (serves : servesAsCopy cl c slot = true) :
    serveOrRedirect env cl c cmd argv q slot st effects =
      match copiedWrite env cl slot (isWriteCommand c cmd) argv st with
      | none => ⟨cl.setSlot slot st,c,effects,some (.faulted .argvOutOfRange)⟩
      | some (b,more) => ⟨cl.setSlot slot { b with dealedOps := b.dealedOps + 1 },c,effects ++ more,none⟩ := by
  rw [serveOrRedirect,copied]
  exact if_pos serves

/-- The second call runs the last part of the block for the client as it then is. -/
theorem copiedBlock {b : SlotState} {cachedNow : List Effect} {client : Client}
    (before : copyingCache env slot (isWriteCommand c cmd) argv (cl.slotStatus slot) = some (b,cachedNow))
    (way : (forwardBranch env cl (isOwner cl slot) (isNoForward c slot) (oneTimeSync env cl.myself slot b).1 = .no ∧
        client = c) ∨
      (forwardBranch env cl (isOwner cl slot) (isNoForward c slot) (oneTimeSync env cl.myself slot b).1 = .stay ∧
        client = noForward c slot)) :
    hotSlotBranches env cl c cmd argv q slot = serveOrRedirect env cl client cmd argv q slot
        (oneTimeSync env cl.myself slot b).1 (cachedNow ++ (oneTimeSync env cl.myself slot b).2) ∧
      (oneTimeSync env cl.myself slot b).1.isCopied = (cl.slotStatus slot).isCopied ∧
      isWriteCommand client cmd = isWriteCommand c cmd := by
  have cached := (copyingCacheTrace cl.myself (cl.slotStatus slot).relatedIns before).2
  have kept := cached.trans (oneTimeSyncTrace env cl.myself slot (fun _ => False) cached.related).2
  rcases way with ⟨no,rfl⟩ | ⟨stay,rfl⟩
  · exact ⟨by simp only [hotSlotBranches,before,no],kept.copied,rfl⟩
  · exact ⟨by simp only [hotSlotBranches,before,stay],kept.copied,rfl⟩

theorem reachesShort (reaches : Reaches env cl c cmd argv slot) (short : ¬ 2 ≤ argv.length) :
    (hotSlotBranches env cl c cmd argv q slot).stop = some (.faulted .argvOutOfRange) := by
  cases reaches with
  | copying on => simp only [hotSlotBranches,copyingCache,on,if_true,addWriteShort short]
  | copied before way serves on =>
    obtain ⟨shape,copied,same⟩ := copiedBlock before way
    rw [shape,serveServed copied serves,copiedShort (same ▸ on) short]

theorem reachesLong (reaches : Reaches env cl c cmd argv slot) (long : 2 ≤ argv.length) :
    ∃ op, cacheOps env.ustime argv = some op ∧ .cached slot op ∈
      (hotSlotBranches env cl c cmd argv q slot).effects := by
  cases reaches with
  | copying on =>
    obtain ⟨op,built,wrote⟩ := @addWriteLong env argv slot (cl.slotStatus slot) long
    refine ⟨op,built,?_⟩
    simp only [hotSlotBranches,copyingCache,on,if_true,wrote]
    split
    · simp
    · simp
    · exact serveEffects (by simp)
    · exact serveEffects (by simp)
  | copied before way serves on =>
    obtain ⟨shape,copied,same⟩ := copiedBlock before way
    obtain ⟨op,b,more,built,wrote⟩ := copiedOn (same ▸ on) long
    rw [shape,serveServed copied serves,wrote]
    exact ⟨op,built,by simp⟩

end

/-- A command that reaches the cache is cached safely exactly when its first argument, up to a
zero byte, is one of its keys. -/
theorem cacheReads {env : Env} {cl : ClusterState} {c : Client} {cmd : RedisCommand} {argv : List Bytes} {h : HashSlot}
    {slot : Slot} (touched : (processCommand env cl c argv).touched = some h) (selected : h.slot? = some slot)
    (known : env.commands (argv.headD []) = some cmd) (reaches : Reaches env cl c cmd argv slot) :
    CacheSafe (processCommand env cl c argv) (commandKeys c cmd argv) ↔ FirstIsKey argv (commandKeys c cmd argv) := by
  obtain ⟨cmd,q,_,accepted,_,asked,rfl,same⟩ := touchedWay touched
  obtain rfl := Option.some.inj (accepted.known.symm.trans known)
  have block : processCommand env cl c argv =
      afterBlock env cmd argv (Query.variable env q) (hotSlotBranches env cl c cmd argv q slot) := by
    rw [same,clusterBlock,asked]
    simp only [selected]
  have effects : (processCommand env cl c argv).effects = (hotSlotBranches env cl c cmd argv q slot).effects := by
    rw [block]
    exact (afterBlockSame _ _ _ _ _).2.1
  by_cases long : 2 ≤ argv.length
  · obtain ⟨op,built,inside⟩ := @reachesLong env cl c cmd argv q slot reaches long
    obtain ⟨key,second,own⟩ := entryKey built
    have only {t : Slot} {other : CacheOps} (cached : Effect.cached t other ∈
        (hotSlotBranches env cl c cmd argv q slot).effects) :
        other = op := by
      obtain ⟨st,_,_,trace⟩ := (hotSlotBranchesSpec env cl c cmd argv q slot).shape
      obtain rfl : t = slot := traceSlots trace _ cached
      exact Option.some.inj (((traceOrigin trace).2.1 other cached).symm.trans built)
    constructor
    · intro safe
      exact ⟨key,second,own ▸ safe.keyed slot op (effects ▸ inside)⟩
    · rintro ⟨first,found,member⟩
      obtain rfl := Option.some.inj (found.symm.trans second)
      refine ⟨?_,fun t other cached => ?_⟩
      · rw [block,afterBlock]
        split
        · rename_i exit stopped
          exact fun fault => blockInside long (stopped.trans (congrArg some fault))
        · intro fault
          have served := callOrRefuseServed env (hotSlotBranches env cl c cmd argv q slot).cluster
            (hotSlotBranches env cl c cmd argv q slot).client cmd argv
            (hotSlotBranches env cl c cmd argv q slot).effects (some (Query.variable env q))
          rw [fault] at served
          contradiction
      · rw [effects] at cached
        rw [only cached,own]
        exact member
  · refine iff_of_false (fun safe => safe.inside ?_) ?_
    · rw [block,afterBlock,reachesShort reaches long]
    · rintro ⟨key,second,_⟩
      have := (List.getElem?_eq_some_iff.mp second).1
      omega

def copiedOwner : ClusterState :=
  { ClusterState.initial 1 1 with slotStatus := fun _ => { SlotState.zeroed with isCopied := true } }

def keptClient : Client := { Client.fresh with noForwardHotSlot := [(keyHashSlot letterK).val] }

theorem ownerReaches {env : Env} {c : Client} {cmd : RedisCommand} {argv : List Bytes}
    (kept : c.noForwardHotSlot = [((keyHashSlot letterK).val : Int)]) (write : isWriteCommand c cmd = true) :
    Reaches env copiedOwner c cmd argv (keyHashSlot letterK) := by
  have before : copyingCache env (keyHashSlot letterK) (isWriteCommand c cmd) argv
    (copiedOwner.slotStatus (keyHashSlot letterK)) = some (copiedOwner.slotStatus (keyHashSlot letterK),[]) := rfl
  have keeps : isNoForward c (keyHashSlot letterK) = true := by simp [isNoForward,kept]
  refine .copied before (.inl ⟨?_,rfl⟩) ?_ (by rw [write]; rfl)
  · rw [keeps]
    rfl
  · rw [servesAsCopy,keeps]
    rfl

def setK : List Bytes := [textSet,letterK,letterA]

theorem setTouches : (processCommand (calm (clock 0)) copiedOwner keptClient setK).touched =
    some (.stored (keyHashSlot letterK)) := by decide +kernel

theorem cacheReadsShown : CacheSafe (processCommand (calm (clock 0)) copiedOwner keptClient setK)
    (commandKeys keptClient setEntry setK) :=
  (cacheReads setTouches (storedSlot? _) rfl (ownerReaches rfl rfl)).mpr ⟨letterK,rfl,by decide⟩

def queuedClient : Client := { keptClient with multi := true, mstate := [⟨setEntry,setK⟩] }

def textBitop : Bytes := [98,105,116,111,112]
def textAnd : Bytes := [65,78,68]

def bitopEntry : RedisCommand := tableEntry textBitop .other (-4) true 2 (-1) 1

def bitopEnv : Env := { calm (clock 0) with commands := fun _ => some bitopEntry }

def bitopK : List Bytes := [textBitop,textAnd,letterK,letterK]

/-- EXEC is read past its one element, and BITOP is cached under the name of its operation. -/
def cachedUnder (key : Bytes) : Effect → Bool
  | .cached _ op => decide (op.key = key)
  | .flushed _ _ => false

theorem execReadsPast :
    (processCommand (calm (clock 0)) copiedOwner queuedClient [textExec]).exit = .faulted .argvOutOfRange ∧
    ¬ CacheSafe (processCommand bitopEnv copiedOwner keptClient bitopK) (commandKeys keptClient bitopEntry bitopK) ∧
    ¬ ∀ (env : Env) (cl : ClusterState) (c : Client) (cmd : RedisCommand) (argv : List Bytes)
      (h : HashSlot) (slot : Slot),
      (processCommand env cl c argv).touched = some h → h.slot? = some slot → env.commands (argv.headD []) = some cmd →
      Reaches env cl c cmd argv slot → CacheSafe (processCommand env cl c argv) (commandKeys c cmd argv) := by
  have fault : (processCommand (calm (clock 0)) copiedOwner queuedClient [textExec]).exit =
    .faulted .argvOutOfRange := rfl
  have execTouches : (processCommand (calm (clock 0)) copiedOwner queuedClient [textExec]).touched =
    some (.stored (keyHashSlot letterK)) := by decide +kernel
  have shows : (processCommand bitopEnv copiedOwner keptClient bitopK).effects.any (cachedUnder textAnd) = true := by
    decide +kernel
  refine ⟨fault,fun safe => ?_,fun all => ?_⟩
  · obtain ⟨e,inside,own⟩ := List.any_eq_true.mp shows
    cases e with
    | cached slot op =>
      have keyed := safe.keyed slot op inside
      rw [of_decide_eq_true own] at keyed
      exact absurd keyed (by decide)
    | flushed => contradiction
  · exact (all _ _ _ _ _ _ _ execTouches (storedSlot? _) rfl (ownerReaches rfl rfl)).inside fault

end HpuCache.CacheReads
