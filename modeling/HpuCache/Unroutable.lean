import HpuCache.CommandPath
import HpuCache.CommandTable

/-! Commands that the query cannot route. Between the query and its error check
stand the branches of hot slots, and they are keyed by a slot that the query stores
only when it has passed all its own checks. -/
namespace HpuCache.Unroutable
open ByteText KeySlot KeyedDict CommandCache ServerState GroupCommands NodeQuery ProcessCommand
open SlotTrace CommandPath CommandTable

/-- A command that reaches the cluster redirection: plain, known and permitted. -/
structure Arrived (env : Env) (cl : ClusterState) (c : Client) (argv : List Bytes) (cmd : RedisCommand) :
    Prop where
  quit : strcasecmpEqual (argv.headD []) textQuit = false
  word : magicBranch (fun s => (cl.slotStatus s).cachedOp) argv = .plain
  accepted : Accepted env c cmd argv

def ordinary (env : Env) (c : Client) (cmd : RedisCommand) : Bool :=
  env.clusterEnabled && !c.master && !c.sync && !c.luaOfMaster &&
    !(!cmdHasMovableKeys cmd && cmd.firstkey = 0 && cmd.proc ≠ .exec)

theorem guardOrdinary (env : Env) (c : Client) (cmd : RedisCommand) (argv : List Bytes) :
    clusterGuard env c cmd argv = (ordinary env c cmd && !isMigrate argv) := by
  simp only [clusterGuard,ordinary]
  cases env.clusterEnabled <;> cases c.master <;> cases isMigrate argv <;> cases c.sync <;>
    cases c.luaOfMaster <;> simp

theorem arrivedOutcome {env cl c argv cmd} (arrived : Arrived env cl c argv cmd) :
    processCommand env cl c argv = if clusterGuard env c cmd argv then clusterBlock env cl c cmd argv
      else callOrRefuse env cl c cmd argv [] none := by
  obtain ⟨quit,word,⟨known,arity,auth,acl⟩⟩ := arrived
  simp only [processCommand,quit,word,dispatch,known,arity,auth,acl,Bool.not_true,Bool.false_eq_true,if_false]

/-- An error or redirection of the query that does not say where the slot lives. -/
def unroutable (q : Query) : Prop := ∃ code, q.code = some code ∧ code ≠ .moved

def cachesCopy (cl : ClusterState) (c : Client) (cmd : RedisCommand) (s : Slot) : Bool :=
  (cl.slotStatus s).haveCopy && (cl.slotStatus s).isCopying && isWriteCommand c cmd

structure Answered (env : Env) (cl : ClusterState) (c : Client) (argv : List Bytes) : Prop where
  answer : ∀ cmd q, Arrived env cl c argv cmd → ordinary env c cmd = true →
    getNodeByQuery env cl c cmd argv = some q → unroutable q →
    (∃ answer, clusterRedirectClient q.node (Query.variable env q).index q.code = some answer ∧
      (processCommand env cl c argv).exit = .redirected answer) ∧
    ∀ slot op, Effect.cached slot op ∉ (processCommand env cl c argv).effects
  selected : ∀ stack, (processCommand env cl c argv).touched ≠ some (.unset stack)

/-- The commands for which the branches between the query and its check do no harm. -/
def Harmless (env : Env) (cl : ClusterState) (c : Client) (argv : List Bytes) : Prop :=
  ∀ cmd q, Arrived env cl c argv cmd → ordinary env c cmd = true →
    getNodeByQuery env cl c cmd argv = some q →
    if isMigrate argv then ¬ unroutable q
    else ∃ s, q.hashslot = some s ∧ (unroutable q → cachesCopy cl c cmd s = false ∧
      forwards cl c s = false ∧ servesAsCopy cl c s = false ∧ q.node ≠ some cl.myself)

section branches
variable {env : Env} {cl : ClusterState} {c : Client} {cmd : RedisCommand} {argv : List Bytes}
  {q : Query} {s : Slot}

theorem branchCold (env : Env) (argv : List Bytes) (q : Query)
    (caching : cachesCopy cl c cmd s = false) (staying : forwards cl c s = false) :
    hotSlotBranches env cl c cmd argv q s = serveOrRedirect env cl c cmd argv q s
      (oneTimeSync env cl.myself s (cl.slotStatus s)).1 (oneTimeSync env cl.myself s (cl.slotStatus s)).2 := by
  have kept := (oneTimeSyncTrace env cl.myself s (fun _ => False)
    (rfl : (cl.slotStatus s).relatedIns = _)).2
  have skipped : copyingCache env s (isWriteCommand c cmd) argv (cl.slotStatus s) =
      some (cl.slotStatus s,[]) := by
    have off : ((cl.slotStatus s).haveCopy && (cl.slotStatus s).isCopying && isWriteCommand c cmd) = false :=
      caching
    rw [copyingCache,off]
    rfl
  have stays : forwardBranch env cl (isOwner cl s) (isNoForward c s)
      (oneTimeSync env cl.myself s (cl.slotStatus s)).1 = .no := by
    unfold forwardBranch
    rw [forwardCondition kept (fun copied have_ => syncedAfter _ (kept.copied ▸ copied) (kept.have_ ▸ have_)),
      staying]
    rfl
  simp only [hotSlotBranches,skipped,List.nil_append,stays]

theorem serveCopyStop {st : SlotState} {effects : List Effect}
    (copied : st.isCopied = (cl.slotStatus s).isCopied) (copy : servesAsCopy cl c s = true)
    (answer : Redirection) :
    (serveOrRedirect env cl c cmd argv q s st effects).stop ≠ some (.redirected answer) := by
  have taken : (st.isCopied && (isCopyInstance cl s || (isOwner cl s && isNoForward c s))) = true := by
    rw [copied]
    exact copy
  unfold serveOrRedirect
  rw [if_pos taken]
  split <;> simp

theorem serveColdStop (env : Env) (cmd : RedisCommand) (argv : List Bytes) (q : Query)
    (effects : List Effect) {st : SlotState} (copied : st.isCopied = (cl.slotStatus s).isCopied)
      (copy : servesAsCopy cl c s = false) :
    (serveOrRedirect env cl c cmd argv q s st effects).effects = effects ∧
    (serveOrRedirect env cl c cmd argv q s st effects).stop =
      if q.node ≠ some cl.myself then some (match clusterRedirectClient q.node s.val q.code with
        | some answer => .redirected answer
        | none => .faulted .panic) else none := by
  have skipped : (st.isCopied && (isCopyInstance cl s || (isOwner cl s && isNoForward c s))) = false := by
    rw [copied]
    exact copy
  unfold serveOrRedirect
  rw [skipped,if_neg (by decide)]
  split <;> exact ⟨rfl,rfl⟩

theorem redirectionMoved {node : Option NodeId} {slot slot' : Int} {code : RedirCode} {n : NodeId}
    (answer : clusterRedirectClient node slot (some code) = some (.moved slot' n)) : code = .moved := by
  cases code <;> simp_all [clusterRedirectClient]

theorem branchHot (hot : cachesCopy cl c cmd s = true ∨ forwards cl c s = true ∨ servesAsCopy cl c s = true)
    (bad : unroutable q) {answer : Redirection} (own : clusterRedirectClient q.node s.val q.code = some answer)
    (stop : (hotSlotBranches env cl c cmd argv q s).stop = some (.redirected answer)) :
    ∃ op, Effect.cached s op ∈ (hotSlotBranches env cl c cmd argv q s).effects := by
  obtain ⟨code,coded,other⟩ := bad
  have kept := (oneTimeSyncTrace env cl.myself s (fun _ => False)
    (rfl : (cl.slotStatus s).relatedIns = _)).2
  have extends_ : ∀ c' st (effects : List Effect) e, e ∈ effects →
      e ∈ (serveOrRedirect env cl c' cmd argv q s st effects).effects := by
    intro c' st effects e member
    unfold serveOrRedirect
    repeat' split
    all_goals first | exact member | exact List.mem_append_left _ member
  cases caching : cachesCopy cl c cmd s with
  | true =>
    have on : ((cl.slotStatus s).haveCopy && (cl.slotStatus s).isCopying && isWriteCommand c cmd) = true :=
      caching
    have stored : copyingCache env s (isWriteCommand c cmd) argv (cl.slotStatus s) =
        addWrite env s argv (cl.slotStatus s) := by rw [copyingCache,if_pos on]
    unfold hotSlotBranches at stop ⊢
    rw [stored] at stop ⊢
    cases added : addWrite env s argv (cl.slotStatus s) with
    | none => simp [added] at stop
    | some result =>
      obtain ⟨st,es⟩ := result
      obtain ⟨op,_,_,shape⟩ := addWriteSpec added
      refine ⟨op,?_⟩
      dsimp only
      have first : Effect.cached s op ∈ es ++ (oneTimeSync env cl.myself s st).2 := by
        rw [shape]
        simp
      split
      · exact first
      · exact first
      · exact extends_ _ _ _ _ first
      · exact extends_ _ _ _ _ first
  | false =>
    exfalso
    cases staying : forwards cl c s with
    | false =>
      rw [branchCold _ _ _ caching staying] at stop
      have copy : servesAsCopy cl c s = true := by simpa [caching,staying] using hot
      exact serveCopyStop kept.copied copy answer stop
    | true =>
      have skipped : copyingCache env s (isWriteCommand c cmd) argv (cl.slotStatus s) =
          some (cl.slotStatus s,[]) := by
        have off : ((cl.slotStatus s).haveCopy && (cl.slotStatus s).isCopying &&
            isWriteCommand c cmd) = false := caching
        rw [copyingCache,off]
        rfl
      simp only [hotSlotBranches,skipped] at stop
      split at stop
      · simp at stop
      · have same := Exit.redirected.inj (Option.some.inj stop)
        rw [coded,← same] at own
        exact other (redirectionMoved own)
      · refine serveCopyStop kept.copied ?_ answer stop
        simp only [forwards,Bool.and_eq_true] at staying
        simp [servesAsCopy,staying,isNoForward,noForward]
      · rename_i no
        unfold forwardBranch at no
        rw [forwardCondition kept (fun copied have_ => syncedAfter _ (kept.copied ▸ copied)
          (kept.have_ ▸ have_)),staying,if_pos rfl] at no
        split at no
        · contradiction
        · split at no <;> contradiction

end branches

theorem storedAnswer {env cl c cmd argv q s code} (asked : getNodeByQuery env cl c cmd argv = some q)
    (stored : q.hashslot = some s) (coded : q.code = some code) (slot : Int) :
    ∃ answer, clusterRedirectClient q.node slot q.code = some answer := by
  obtain ⟨scan,_,sound,own,shape,_⟩ := storedSlot asked stored
  rw [shape] at coded ⊢
  rw [coded]
  rcases routeSlotCode coded with ⟨rfl,target,migrating⟩ | rfl | ⟨rfl,target⟩
  · obtain ⟨node,found⟩ := Option.isSome_iff_exists.mp (sound.migrating migrating).2
    exact ⟨.ask slot node,by rw [target,found]; rfl⟩
  · exact ⟨_,rfl⟩
  · exact ⟨.moved slot scan.node,by rw [target]; rfl⟩

theorem routedArrived {env cl c argv cmd h} (touched : (processCommand env cl c argv).touched = some h)
    (word : magicBranch (fun s => (cl.slotStatus s).cachedOp) argv = .plain)
    (accepted : Accepted env c cmd argv) : Arrived env cl c argv cmd := by
  refine ⟨?_,word,accepted⟩
  cases quit : strcasecmpEqual (argv.headD []) textQuit with
  | false => rfl
  | true =>
    rw [processCommand,if_pos quit] at touched
    contradiction

theorem callOrRefuseAnswer {env cl c cmd argv effects touched answer}
    (exit : (callOrRefuse env cl c cmd argv effects touched).exit = .redirected answer) : False := by
  have served := callOrRefuseServed env cl c cmd argv effects touched
  rw [exit] at served
  contradiction

theorem storedOutcome {env cl c argv cmd q s} (arrived : Arrived env cl c argv cmd)
    (guard : clusterGuard env c cmd argv = true) (asked : getNodeByQuery env cl c cmd argv = some q)
    (stored : q.hashslot = some s) :
    processCommand env cl c argv =
      afterBlock env cmd argv (.stored s) (hotSlotBranches env cl c cmd argv q s) := by
  have selected : Query.variable env q = .stored s := by rw [Query.variable,stored]
  rw [arrivedOutcome arrived,if_pos guard,clusterBlock,asked]
  dsimp only
  rw [selected,storedSlot?]

/-- Exactly the commands whose slot the query stored, and, when they are unroutable, whose
slot is neither being copied, forwarded nor served as a copy, are answered as they should. -/
theorem unroutableAnswered (env : Env) (cl : ClusterState) (c : Client) (argv : List Bytes) :
    Answered env cl c argv ↔ Harmless env cl c argv := by
  constructor
  · rintro ⟨answered,selected⟩ cmd q arrived usual asked
    have guard := guardOrdinary env c cmd argv
    rw [usual,Bool.true_and] at guard
    split
    · rename_i migrate
      intro bad
      obtain ⟨⟨answer,_,exit⟩,_⟩ := answered cmd q arrived usual asked bad
      rw [arrivedOutcome arrived,guard,migrate,if_neg (by decide)] at exit
      exact callOrRefuseAnswer exit
    · rename_i plain
      have routed : clusterGuard env c cmd argv = true := by simpa [plain] using guard
      cases stored : q.hashslot with
      | none =>
        exfalso
        apply selected env.stack
        have unset : Query.variable env q = .unset env.stack := by rw [Query.variable,stored]
        rw [arrivedOutcome arrived,if_pos routed,clusterBlock,asked]
        dsimp only
        rw [unset]
        split
        · rfl
        · exact (afterBlockSame _ _ _ _ _).2.2
      | some s =>
        refine ⟨s,rfl,fun bad => ?_⟩
        obtain ⟨⟨answer,own,exit⟩,uncached⟩ := answered cmd q arrived usual asked bad
        rw [storedOutcome arrived routed asked stored] at exit uncached
        rw [(afterBlockSame _ _ _ _ _).2.1] at uncached
        have stop := afterBlockRedirected exit
        have index : (Query.variable env q).index = s.val := by rw [Query.variable,stored]; rfl
        rw [index] at own
        have cold : ¬ (cachesCopy cl c cmd s = true ∨ forwards cl c s = true ∨
            servesAsCopy cl c s = true) := by
          intro hot
          obtain ⟨op,member⟩ := branchHot hot bad own stop
          exact uncached s op member
        simp only [not_or,Bool.not_eq_true] at cold
        obtain ⟨caching,staying,copy⟩ := cold
        refine ⟨caching,staying,copy,fun here => ?_⟩
        have kept := (oneTimeSyncTrace env cl.myself s (fun _ => False)
          (rfl : (cl.slotStatus s).relatedIns = _)).2
        rw [branchCold _ _ _ caching staying,(serveColdStop _ _ _ _ _ kept.copied copy).2,
          if_neg (by simp [here])] at stop
        contradiction
  · intro harmless
    refine ⟨fun cmd q arrived usual asked bad => ?_,fun stack touched => ?_⟩
    · have way := harmless cmd q arrived usual asked
      split at way
      · exact absurd bad way
      rename_i plain
      obtain ⟨s,stored,cold⟩ := way
      obtain ⟨caching,staying,copy,away⟩ := cold bad
      obtain ⟨code,coded,_⟩ := bad
      have routed : clusterGuard env c cmd argv = true := by
        rw [guardOrdinary,usual]
        simpa using plain
      have kept := (oneTimeSyncTrace env cl.myself s (fun _ => False)
        (rfl : (cl.slotStatus s).relatedIns = _)).2
      have index : (Query.variable env q).index = s.val := by rw [Query.variable,stored]; rfl
      have block := branchCold env argv q caching staying
      obtain ⟨effects,stop⟩ := serveColdStop env cmd argv q
        (oneTimeSync env cl.myself s (cl.slotStatus s)).2 kept.copied copy
      rw [if_pos away] at stop
      obtain ⟨answer,own⟩ := storedAnswer asked stored coded s.val
      rw [own] at stop
      rw [storedOutcome arrived routed asked stored,(afterBlockSame _ _ _ _ _).2.1,block,afterBlock,stop,
        effects,index]
      refine ⟨⟨answer,own,rfl⟩,fun t op member => ?_⟩
      have trace := (oneTimeSyncTrace env cl.myself s (fun _ => False)
        (rfl : (cl.slotStatus s).relatedIns = _)).1
      obtain rfl : t = s := traceSlots trace _ member
      exact (traceOrigin trace).2.1 op member
    · obtain ⟨cmd,q,word,accepted,guard,asked,own,same⟩ := touchedWay touched
      have usual : ordinary env c cmd = true ∧ isMigrate argv = false := by
        simpa [guardOrdinary] using guard
      have way := harmless cmd q (routedArrived touched word accepted) usual.1 asked
      rw [usual.2,if_neg (by decide)] at way
      obtain ⟨s,stored,_⟩ := way
      rw [Query.variable,stored] at own
      contradiction

def copyHolder : ClusterState :=
  (ClusterState.initial 1 2).setSlot (keyHashSlot letterK)
    { SlotState.zeroed with isCopied := true, relatedIns := Dict.empty.replace 2 }

def staleCell : Env := { calm (clock 0) with stack := (keyHashSlot letterK).val }

def twoSlots : List Bytes := [textMset,letterA,[49],letterB,[49]]

def Effect.isCached : Effect → Bool
  | .cached _ _ => true
  | .flushed _ _ => false

/-- A command over two slots is cached for the group and executed. -/
theorem crossSlotExecuted :
    getNodeByQuery staleCell copyHolder .fresh msetEntry twoSlots = some ⟨none,none,some .crossSlot⟩ ∧
    Exit.calls (processCommand staleCell copyHolder .fresh twoSlots).exit = some twoSlots ∧
    (processCommand staleCell copyHolder .fresh twoSlots).effects.any Effect.isCached = true ∧
    ¬ Answered staleCell copyHolder .fresh twoSlots := by
  refine ⟨by decide,by decide,by decide,fun answered => ?_⟩
  exact answered.selected (keyHashSlot letterK).val (by decide)

end HpuCache.Unroutable
