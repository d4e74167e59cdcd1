import HpuCache.CommandPath
import HpuCache.CommandTable
import HpuCache.EventRun
import HpuCache.FifoLinks
import HpuCache.MemberStep

/-! Writes on their way through a hot group. A write is cached and sent before the
checks that may still refuse it, so that only a command which passes them all is
sure to have been executed where it came from. -/
namespace HpuCache.Propagation
open ByteText KeySlot KeyedDict CommandCache ServerState GroupCommands NodeQuery ProcessCommand
open SlotTrace CommandPath CommandTable MemberStep EventRun FifoLinks

structure Group where
  node : NodeId → ClusterState
  links : Links NodeId CacheOps
  -- The client commands a node has executed, and the forwarded ones with their origin.
  ran : NodeId → List (List Bytes)
  peerRan : NodeId → List (NodeId × List Bytes)

inductive Event where
  | act (node : NodeId) (event : MemberEvent)
  -- The receiver sees the sender as a client of its own.
  | deliver (source target : NodeId) (env : Env) (client : Client)

def executed : Exit → List (List Bytes)
  | .called _ argv => [argv]
  | _ => []

def runsHere (cl : ClusterState) : MemberEvent → List (List Bytes)
  | .command env c argv => executed (processCommand env cl c argv).exit
  | _ => []

def step (nodes : List NodeId) (g : Group) : Event → Option Group
  | .act x event =>
    match memberStep nodes (g.node x) event with
    | .error _ => none
    | .ok r => some ⟨Function.update g.node x r.cluster,
        post g.links x (fun y => sentTo y (r.effects.flatMap Effect.sends)),
        Function.update g.ran x (g.ran x ++ runsHere (g.node x) event),g.peerRan⟩
  | .deliver x y env client =>
    match g.links x y with
    | [] => none
    | op :: rest =>
      let out := processCommand env (g.node y) client op.argv
      some ⟨Function.update g.node y out.cluster,withdraw g.links x y rest,g.ran,
        Function.update g.peerRan y (g.peerRan y ++ (executed out.exit).map (Prod.mk x))⟩

/-- The command goes to the cache of a slot: a write, in a synchronised group, on a slot that
this node serves as a copy for the client. -/
structure Caches (env : Env) (cl : ClusterState) (c : Client) (argv : List Bytes) (cmd : RedisCommand)
    (s : Slot) : Prop where
  known : env.commands (argv.headD []) = some cmd
  guard : clusterGuard env c cmd argv = true
  slot : ∃ q, getNodeByQuery env cl c cmd argv = some q ∧ (Query.variable env q).slot? = some s
  write : isWriteCommand c cmd = true
  sync : cl.isSync = true
  copy : servesAsCopy cl c s = true ∨ keeps env cl c s = true

/-- None of the checks below the cluster block refuses, pauses or queues the command. -/
structure Unrefused (env : Env) (c : Client) (cmd : RedisCommand) (argv : List Bytes) : Prop where
  freed : freedWhileEvicting env = false
  memory : outOfMemory env c cmd = false
  disk : denyWriteByDiskError env c cmd = false
  replicas : tooFewReplicas env c cmd = false
  pubsub : inPubsubMode c cmd = false
  master : masterIsDown env c cmd = false
  loading : isLoading env c cmd = false
  script : scriptIsSlow env cmd argv = false
  pause : clientsPaused env c cmd = false
  multi : queuesInMulti c cmd = false

theorem unrefusedLater {env c cmd argv} (free : Unrefused env c cmd argv) :
    laterExit env c cmd argv = none := by
  obtain ⟨freed,memory,disk,replicas,pubsub,master,loading,script,pause,multi⟩ := free
  simp [laterExit,laterChecks,List.find?,freed,memory,disk,replicas,pubsub,master,loading,script,pause,multi]

/-- What is asked of a step: a write that is cached is then executed, and is cached as it is. -/
def StepOk (g : Group) : Event → Prop
  | .act x (.command env c argv) => ∀ cmd s, Caches env (g.node x) c argv cmd s →
      Unrefused env c cmd argv ∧ ∀ a ∈ argv, ZeroFree a
  | _ => True

/-- A slot is never being copied and marked as copied away at once. -/
def Steady (cl : ClusterState) : Prop :=
  ∀ s, ((cl.slotStatus s).haveCopy && (cl.slotStatus s).isCopying) = false

theorem steadyKept {nodes : List NodeId} {cl : ClusterState} {event : MemberEvent} {r : MemberResult}
    (steady : Steady cl) (ok : memberStep nodes cl event = .ok r) : Steady r.cluster := by
  intro s
  have flags := (memberStepSpec ok).flags s
  have before := steady s
  have both : ((flagsOf (r.cluster.slotStatus s)).haveCopy && (flagsOf (r.cluster.slotStatus s)).copying) =
      false := by
    rw [flags]
    cases event with
    | hotgroup order word t =>
      simp only [flagsAfter]
      split
      · exact Bool.and_false _
      · exact before
    | setslot finished t =>
      simp only [flagsAfter]
      split
      · cases finished <;> rfl
      · exact before
    | packet msg =>
      simp only [flagsAfter]
      split <;> exact before
    | _ => exact before
  exact both

/-- The one way into the cache: the command is the write of a copied slot, and it is executed
unless a later check takes it. -/
theorem cachedCommand {env cl c argv s op} (steady : Steady cl)
    (cached : Effect.cached s op ∈ (processCommand env cl c argv).effects) :
    ∃ cmd, Caches env cl c argv cmd s ∧ cacheOps env.ustime argv = some op ∧
      (laterExit env c cmd argv = none → (processCommand env cl c argv).exit = .called cmd argv) := by
  obtain ⟨out,same⟩ : ∃ out, processCommand env cl c argv = out := ⟨_,rfl⟩
  have way := processWay env cl c argv
  rw [same] at way cached
  cases way with
  | early _ effects _ _ => rw [effects] at cached; contradiction
  | bypass => rw [(callOrRefuseSame _ _ _ _ _ _ _).2.1] at cached; contradiction
  | @routed cmd word accepted guard =>
    unfold clusterBlock at same cached
    split at same
    · rename_i asked
      simp [asked] at cached
    rename_i q asked
    simp only [asked] at cached
    split at same
    · rename_i outside
      simp [outside] at cached
    rename_i t inside
    simp only [inside,(afterBlockSame _ _ _ _ _).2.1] at cached
    obtain ⟨c',own,serves⟩ := branchServes env c cmd argv q (steady t)
    obtain ⟨st,_,_,trace⟩ := (hotSlotBranchesSpec env cl c cmd argv q t).shape
    obtain rfl : s = t := traceSlots trace _ cached
    have built : cacheOps env.ustime argv = some op := (traceOrigin trace).2.1 op cached
    have first := (oneTimeSyncTrace env cl.myself s (fun _ => False)
      (rfl : (cl.slotStatus s).relatedIns = _)).1
    have silent : Effect.cached s op ∉ (oneTimeSync env cl.myself s (cl.slotStatus s)).2 :=
      fun member => (traceOrigin first).2.1 op member
    generalize hotSlotBranches env cl c cmd argv q s = block at serves same cached
    cases serves with
    | stopped => exact absurd cached silent
    | plain => exact absurd cached silent
    | @copy b more copy written =>
      have added : Effect.cached s op ∈ more := (List.mem_append.mp cached).resolve_left silent
      have writes : isWriteCommand c' cmd = isWriteCommand c cmd := by rcases own with rfl | ⟨rfl,_⟩ <;> rfl
      rw [writes,copiedWrite] at written
      split at written
      · rename_i taken
        simp only [Bool.and_eq_true] at taken
        refine ⟨cmd,⟨accepted.known,guard,⟨q,asked,inside⟩,taken.1,taken.2,?_⟩,built,?_⟩
        · rcases own with rfl | ⟨rfl,kept⟩
          · exact .inl copy
          · exact .inr kept
        · intro free
          have later : laterExit env c' cmd argv = none := by
            rcases own with rfl | ⟨rfl,_⟩
            · exact free
            · exact free
          rw [same,afterBlock]
          simp only [callOrRefuse,later]
      · cases Option.some.inj written
        contradiction

theorem stepCached {nodes : List NodeId} {g : Group} {x : NodeId} {event : MemberEvent} {r : MemberResult}
    {s : Slot} {op : CacheOps} (steady : Steady (g.node x)) (admitted : StepOk g (.act x event))
    (ok : memberStep nodes (g.node x) event = .ok r) (cached : Effect.cached s op ∈ r.effects) :
    ∃ now words, cacheOps now words = some op ∧ words ∈ runsHere (g.node x) event ∧
      ∀ a ∈ words, ZeroFree a := by
  have filtered : Effect.cached s op ∈ r.effects.filter (fun e => e.slot = s) :=
    List.mem_filter.mpr ⟨cached,by simp [Effect.slot]⟩
  have own := (traceOrigin ((memberStepSpec ok).trace s)).2.1 op filtered
  cases event with
  | command env c argv =>
    have effects : r.effects = (processCommand env (g.node x) c argv).effects := by
      simp only [memberStep] at ok
      split at ok <;> try contradiction
      rw [← Except.ok.inj ok]
    rw [effects] at cached
    obtain ⟨cmd,caches,built,runs⟩ := cachedCommand steady cached
    obtain ⟨free,plain⟩ := admitted cmd s caches
    refine ⟨env.ustime,argv,built,?_,plain⟩
    rw [runsHere,runs (unrefusedLater free)]
    exact List.mem_singleton_self argv
  | _ => exact own.elim

def Known (ran : NodeId → List (List Bytes)) (x : NodeId) (op : CacheOps) : Prop :=
  ∃ now words, cacheOps now words = some op ∧ words ∈ ran x ∧ ∀ a ∈ words, ZeroFree a

theorem knownBody {ran : NodeId → List (List Bytes)} {x : NodeId} {op : CacheOps} (known : Known ran x op) :
    op.argv.drop 2 ∈ ran x := by
  obtain ⟨now,words,built,member,free⟩ := known
  rw [cacheOpsVerbatim built free]
  exact member

structure Honest (g : Group) : Prop where
  steady : ∀ x, Steady (g.node x)
  cached : ∀ x s, ∀ op ∈ ((g.node x).slotStatus s).cachedOp.entries, Known g.ran x op
  wire : ∀ x y, ∀ op ∈ g.links x y, Known g.ran x op
  peer : ∀ y x argv, (x,argv) ∈ g.peerRan y → argv ∈ g.ran x

theorem actHonest {nodes : List NodeId} {g : Group} {x : NodeId} {event : MemberEvent} {r : MemberResult}
    (honest : Honest g) (admitted : StepOk g (.act x event))
    (ok : memberStep nodes (g.node x) event = .ok r) :
    Honest ⟨Function.update g.node x r.cluster,
      post g.links x (fun y => sentTo y (r.effects.flatMap Effect.sends)),
      Function.update g.ran x (g.ran x ++ runsHere (g.node x) event),g.peerRan⟩ := by
  have grown : ∀ y words, words ∈ g.ran y →
      words ∈ Function.update g.ran x (g.ran x ++ runsHere (g.node x) event) y := by
    intro y words member
    by_cases same : y = x
    · subst same
      rw [Function.update_self]
      exact List.mem_append_left _ member
    · rwa [Function.update_of_ne same]
  have old : ∀ y op, Known g.ran y op →
      Known (Function.update g.ran x (g.ran x ++ runsHere (g.node x) event)) y op := by
    rintro y op ⟨now,words,built,member,free⟩
    exact ⟨now,words,built,grown y words member,free⟩
  have new : ∀ s op, Effect.cached s op ∈ r.effects →
      Known (Function.update g.ran x (g.ran x ++ runsHere (g.node x) event)) x op := by
    intro s op cached
    obtain ⟨now,words,built,member,free⟩ := stepCached (honest.steady x) admitted ok cached
    refine ⟨now,words,built,?_,free⟩
    rw [Function.update_self]
    exact List.mem_append_right _ member
  have origin := fun s => traceOrigin ((memberStepSpec ok).trace s)
  refine ⟨fun y => ?_,fun y s op member => ?_,fun a b op member => ?_,fun y z argv member => ?_⟩
  · by_cases same : y = x
    · subst same
      simpa using steadyKept (honest.steady y) ok
    · simpa [Function.update_of_ne same] using honest.steady y
  · by_cases same : y = x
    · subst same
      simp only [Function.update_self] at member
      rcases (origin s).1 op member with before | cached
      · exact old y op (honest.cached y s op before)
      · exact new s op (List.mem_filter.mp cached).1
    · simp only [Function.update_of_ne same] at member
      exact old y op (honest.cached y s op member)
  · dsimp only at member
    rcases memPost.mp member with queued | ⟨rfl,sent⟩
    · exact old a op (honest.wire a b op queued)
    · obtain ⟨effect,inside,carried⟩ := List.mem_flatMap.mp (memSentTo.mp sent)
      cases effect with
      | cached => simp [Effect.sends] at carried
      | flushed s f =>
        have filtered : Effect.flushed s f ∈ r.effects.filter (fun e => e.slot = s) :=
          List.mem_filter.mpr ⟨inside,by simp [Effect.slot]⟩
        rcases (origin s).2.2 f filtered _ carried with before | cached
        · exact old a op (honest.cached a s op before)
        · exact new s op (List.mem_filter.mp cached).1
  · exact grown z argv (honest.peer y z argv member)

theorem deliverHonest {g : Group} {x y : NodeId} {op : CacheOps} {rest : List CacheOps} {env : Env}
    {client : Client} (honest : Honest g) (queue : g.links x y = op :: rest) :
    Honest ⟨Function.update g.node y (processCommand env (g.node y) client op.argv).cluster,
      withdraw g.links x y rest,g.ran,Function.update g.peerRan y (g.peerRan y ++
        (executed (processCommand env (g.node y) client op.argv).exit).map (Prod.mk x))⟩ := by
  have known := honest.wire x y op (by rw [queue]; exact List.mem_cons_self)
  have magic : strncmpEqual (op.argv.headD []) magicWord 6 = true := by
    obtain ⟨now,words,built,_,_⟩ := known
    rw [(cacheOpsShape built).2]
    rfl
  have still : (processCommand env (g.node y) client op.argv).cluster = g.node y := (forwardedNoEcho magic).1
  rw [still,Function.update_eq_self]
  refine ⟨honest.steady,honest.cached,fun a b o member => honest.wire a b o (memWithdraw queue member),?_⟩
  intro b a argv member
  dsimp only at member ⊢
  by_cases same : b = y
  · subst same
    rw [Function.update_self] at member
    rcases List.mem_append.mp member with before | new
    · exact honest.peer b a argv before
    · obtain ⟨words,runs,own⟩ := List.mem_map.mp new
      cases own
      cases exit : (processCommand env (g.node b) client op.argv).exit with
      | called cmd args =>
        rw [exit,executed,List.mem_singleton] at runs
        rw [runs,forwardedCalled magic exit]
        exact knownBody known
      | _ => simp [exit,executed] at runs
  · rw [Function.update_of_ne same] at member
    exact honest.peer b a argv member

/-- Nothing is cached, in flight or executed for another node. -/
structure Untouched (g : Group) : Prop where
  zeroed : ∀ x s, (g.node x).slotStatus s = .zeroed
  quiet : Quiet g.links
  peer : ∀ y, g.peerRan y = []

theorem untouchedHonest {g : Group} (untouched : Untouched g) : Honest g := by
  refine ⟨fun x s => ?_,fun x s op member => ?_,fun x y op member => ?_,fun y x argv member => ?_⟩
  · rw [untouched.zeroed x s]
    rfl
  · rw [untouched.zeroed x s] at member
    simp [SlotState.zeroed,Dict.empty] at member
  · rw [untouched.quiet x y] at member
    contradiction
  · rw [untouched.peer y] at member
    contradiction

/-- While every write that is cached passes the later checks and holds no zero byte, what is
cached or on its way was executed by its origin, and so was all that the peers execute. -/
theorem onlyExecutedPropagates {nodes : List NodeId} {start g : Group} {past : List Event}
    (untouched : Untouched start) (run : Reach (Guarded StepOk (Takes (step nodes))) start past g) :
    (∀ x s, ∀ op ∈ ((g.node x).slotStatus s).cachedOp.entries, op.argv.drop 2 ∈ g.ran x) ∧
    (∀ x y, ∀ op ∈ g.links x y, op.argv.drop 2 ∈ g.ran x) ∧
    ∀ y x argv, (x,argv) ∈ g.peerRan y → argv ∈ g.ran x := by
  have honest : Honest g := by
    refine reachInvariant (untouchedHonest untouched) ?_ run
    rintro g event next honest ⟨admitted,taken⟩
    simp only [Takes] at taken
    cases event with
    | act x event =>
      simp only [step] at taken
      split at taken <;> try contradiction
      rename_i r ok
      cases Option.some.inj taken
      exact actHonest honest admitted ok
    | deliver x y env client =>
      simp only [step] at taken
      split at taken <;> try contradiction
      rename_i op rest queue
      cases Option.some.inj taken
      exact deliverHonest honest queue
  exact ⟨fun x s op member => knownBody (honest.cached x s op member),
    fun x y op member => knownBody (honest.wire x y op member),honest.peer⟩

def checkStep (_ : Group) : Event → Bool
  | .act _ (.command env c argv) =>
    match env.commands (argv.headD []) with
    | none => true
    | some cmd => (laterChecks env c cmd argv).all (fun check => !check.holds) &&
        decide (∀ a ∈ argv, ZeroFree a)
  | _ => true

theorem checkStepSound (g : Group) (event : Event) (h : checkStep g event = true) : StepOk g event := by
  cases event with
  | deliver => trivial
  | act x event =>
    cases event with
    | command env c argv =>
      intro cmd s caches
      simp only [checkStep,caches.known,Bool.and_eq_true,decide_eq_true_eq] at h
      obtain ⟨free,plain⟩ := h
      simp only [laterChecks,List.all_cons,List.all_nil,Bool.and_eq_true,Bool.not_eq_true'] at free
      obtain ⟨freed,memory,disk,replicas,pubsub,master,loading,script,pause,multi,_⟩ := free
      exact ⟨⟨freed,memory,disk,replicas,pubsub,master,loading,script,pause,multi⟩,plain⟩
    | _ => trivial

def calmGroup : Group := ⟨ClusterState.initial 1,FifoLinks.empty,fun _ => [],fun _ => []⟩

theorem calmUntouched : Untouched calmGroup := ⟨fun _ _ => rfl,fun _ _ => rfl,fun _ => rfl⟩

def writeAtSecond (env : Env) : List Event :=
  [.act 2 (.runmode textImmd textAvg),.act 2 (.hotgroup .asStored textAdd (keyHashSlot letterK)),
    .act 2 (.packet (clusterBroadcastOwnAsHotInstance 1 (keyHashSlot letterK) 1)),
    .act 2 (.command env .fresh [textSet,letterK,letterA]),.deliver 2 1 (calm (clock 1)) .fresh]

def bothNodes : List NodeId := [1,2]

def checkedGroup (g : Group) (event : Event) : Option Group :=
  if checkStep g event then step bothNodes g event else none

theorem onlyExecutedPropagatesShown : ∃ past g,
    Reach (Guarded StepOk (Takes (step bothNodes))) calmGroup past g ∧
    g.peerRan 1 = [(2,[textSet,letterK,letterA])] ∧ [textSet,letterK,letterA] ∈ g.ran 2 := by
  obtain ⟨g,done⟩ : ∃ g, replay checkedGroup calmGroup (writeAtSecond (calm (clock 0))) = some g :=
    Option.isSome_iff_exists.mp (by decide)
  have seen : (replay checkedGroup calmGroup (writeAtSecond (calm (clock 0)))).all
      (fun g => decide (g.peerRan 1 = [(2,[textSet,letterK,letterA])])) = true := by decide
  simp only [done,Option.all_some,decide_eq_true_eq] at seen
  have run := replayGuarded checkStepSound done
  refine ⟨_,g,run,seen,?_⟩
  exact (onlyExecutedPropagates calmUntouched run).2.2 1 2 _ (by rw [seen]; exact List.mem_singleton_self _)

def shortOfMemory : Env := { calm (clock 0) with maxmemory := true, evictFail := true }

/-- A write that its origin refuses for memory is executed at the other node. -/
theorem refusedWriteExecuted :
    ∃ g, replay (step bothNodes) calmGroup (writeAtSecond shortOfMemory) = some g ∧
      g.peerRan 1 = [(2,[textSet,letterK,letterA])] ∧ g.ran 2 = [] := by
  obtain ⟨g,done⟩ : ∃ g, replay (step bothNodes) calmGroup (writeAtSecond shortOfMemory) = some g :=
    Option.isSome_iff_exists.mp (by decide)
  have seen : (replay (step bothNodes) calmGroup (writeAtSecond shortOfMemory)).all (fun g =>
      decide (g.peerRan 1 = [(2,[textSet,letterK,letterA])]) && decide (g.ran 2 = [])) = true := by decide
  simp only [done,Option.all_some,Bool.and_eq_true,decide_eq_true_eq] at seen
  exact ⟨g,done,seen⟩

end HpuCache.Propagation
