import HpuCache.CommandTrip
import HpuCache.ConsistServer

/-! Vectors that arrive under the magic word. The branch reads the stamp and the key from fixed
positions before anything has looked at the number of arguments, and the cluster state before
anything has looked whether there is one. The server of the consistency
experiments has the same branch under its own word, of which it compares six bytes only. -/
namespace HpuCache.ForwardedShape
open ByteText KeySlot KeyedDict CommandCache ServerState NodeQuery ProcessCommand SlotTrace CommandTable FanOut

/-- A known command with a number of arguments it takes. -/
def WellFormed (env : Env) (inner : List Bytes) : Prop :=
  ∃ cmd, env.commands (inner.headD []) = some cmd ∧ wrongArity cmd inner = false

/-- The entry of the key has a newer stamp than the forwarded command. -/
def Newer (cl : ClusterState) (argv : List Bytes) : Prop :=
  ∃ stamp key op, argv[1]? = some stamp ∧ argv[3]? = some key ∧
    (cl.slotStatus (keyHashSlot key)).cachedOp.find key = some op ∧ strtoll op.stamp > strtoll stamp

def Rejects (exit : Exit) : Prop := ∃ why, exit = .rejected why

/-- No answer is asked for where nothing happens. -/
def Silent (exit : Exit) : Prop := Rejects exit ∨ exit = .dropped

section branch
variable {α : Type}

/-- What a server makes of a forwarded vector: the rest of its function, and what of the outcome counts. -/
structure Server (α : Type) where
  branch : (Slot → OpDict) → List Bytes → Magic
  dispatch : Client → List Bytes → α
  exit : α → Exit
  cluster : α → ClusterState

/-- Only existing arguments are read and one of them is left; then a well-formed command goes on to
the rest of the function, or nothing has changed and the exit is an answer. -/
structure Handled (server : Server α) (answer : Exit → Prop) (env : Env) (cl : ClusterState) (c : Client)
    (argv : List Bytes) (out : α) : Prop where
  reads : server.branch (fun slot => (cl.slotStatus slot).cachedOp) argv ≠ .fault
  left : ∀ inner, server.branch (fun slot => (cl.slotStatus slot).cachedOp) argv = .inner inner → inner ≠ []
  outcome : (∃ inner, server.branch (fun slot => (cl.slotStatus slot).cachedOp) argv = .inner inner ∧
      WellFormed env inner ∧ out = server.dispatch { c with sync := true } inner) ∨
    answer (server.exit out) ∧ server.cluster out = cl

/-- The ways of the branch, and what the function does on each; `alone` is without cluster mode. -/
structure Branches (server : Server α) (env : Env) (cl : ClusterState) (c : Client) (argv : List Bytes) (out : α) :
    Prop where
  short : argv.length < 4 → server.branch (fun slot => (cl.slotStatus slot).cachedOp) argv = .fault
  alone : 4 ≤ argv.length → env.clusterEnabled = false → server.exit out = .faulted .nullCluster ∧
    ∀ c inner, server.exit (server.dispatch c inner) ≠ .faulted .nullCluster
  stale : 4 ≤ argv.length → Newer cl argv →
    server.branch (fun slot => (cl.slotStatus slot).cachedOp) argv = .stale ∧
      (env.clusterEnabled = true → server.exit out = .dropped ∧ server.cluster out = cl)
  inner : 4 ≤ argv.length → ¬ Newer cl argv →
    server.branch (fun slot => (cl.slotStatus slot).cachedOp) argv = .inner (argv.drop 2) ∧
      (env.clusterEnabled = true → out = server.dispatch { c with sync := true } (argv.drop 2))
  malformed : ∀ c inner, ¬ WellFormed env inner →
    Rejects (server.exit (server.dispatch c inner)) ∧ server.cluster (server.dispatch c inner) = cl

variable {server : Server α} {answer : Exit → Prop} {env : Env} {cl : ClusterState} {c : Client} {argv : List Bytes}
  {out : α}

theorem aloneHandled (faults : ¬ answer (.faulted .nullCluster)) (ways : Branches server env cl c argv out)
    (long : 4 ≤ argv.length) (alone : env.clusterEnabled = false) : ¬ Handled server answer env cl c argv out := by
  obtain ⟨exit,others⟩ := ways.alone long alone
  intro handled
  rcases handled.outcome with ⟨inner,_,_,same⟩ | ⟨given,_⟩
  · exact others _ _ (same ▸ exit)
  · rw [exit] at given
    exact faults given

theorem staleHandled (ways : Branches server env cl c argv out) (long : 4 ≤ argv.length)
    (enabled : env.clusterEnabled = true) (newer : Newer cl argv) :
    Handled server answer env cl c argv out ↔ answer .dropped := by
  obtain ⟨stale,ends⟩ := ways.stale long newer
  obtain ⟨exit,same⟩ := ends enabled
  constructor
  · intro handled
    rcases handled.outcome with ⟨inner,other,_⟩ | ⟨given,_⟩
    · exact nomatch stale.symm.trans other
    · rwa [exit] at given
  · intro given
    refine ⟨fun fault => ?_,fun inner other => ?_,.inr ⟨by rwa [exit],same⟩⟩
    · exact nomatch stale.symm.trans fault
    · exact nomatch stale.symm.trans other

theorem innerHandled (rejects : ∀ exit, Rejects exit → answer exit) (ways : Branches server env cl c argv out)
    (long : 4 ≤ argv.length) (enabled : env.clusterEnabled = true) (fresh : ¬ Newer cl argv) :
    Handled server answer env cl c argv out := by
  obtain ⟨inner,ends⟩ := ways.inner long fresh
  have same := ends enabled
  refine ⟨fun fault => ?_,fun rest other => ?_,?_⟩
  · exact nomatch inner.symm.trans fault
  · obtain rfl := Magic.inner.inj (inner.symm.trans other)
    intro bare
    have short := congrArg List.length bare
    simp only [List.length_drop,List.length_nil] at short
    omega
  · by_cases well : WellFormed env (argv.drop 2)
    · exact .inl ⟨_,inner,well,same⟩
    · obtain ⟨rejected,kept⟩ := ways.malformed { c with sync := true } _ well
      rw [← same] at rejected kept
      exact .inr ⟨rejects _ rejected,kept⟩

theorem handledIff (rejects : ∀ exit, Rejects exit → answer exit) (faults : ¬ answer (.faulted .nullCluster))
    (ways : Branches server env cl c argv out) :
    Handled server answer env cl c argv out ↔
      4 ≤ argv.length ∧ env.clusterEnabled = true ∧ (Newer cl argv → answer .dropped) := by
  by_cases long : 4 ≤ argv.length
  · cases enabled : env.clusterEnabled with
    | false => exact iff_of_false (aloneHandled faults ways long enabled) fun h => nomatch h.2.1
    | true =>
      by_cases newer : Newer cl argv
      · simp only [staleHandled ways long enabled newer,long,newer,true_and,forall_const]
      · exact iff_of_true (innerHandled rejects ways long enabled newer) ⟨long,rfl,fun h => absurd h newer⟩
  · exact iff_of_false (fun handled => handled.reads (ways.short (by omega))) fun h => long h.1

end branch

/-- The branch behind the comparison with the word, which both servers share. -/
def forwardedBranch (cachedOp : Slot → OpDict) (argv : List Bytes) : Magic :=
  match argv[1]?, argv[3]? with
  | some stamp, some key =>
    match (cachedOp (keyHashSlot key)).find key with
    | some op => if strtoll op.stamp > strtoll stamp then .stale else .inner (argv.drop 2)
    | none => .inner (argv.drop 2)
  | _, _ => .fault

section shape
variable {cl : ClusterState} {argv : List Bytes}

theorem branchShort (cachedOp : Slot → OpDict) (short : argv.length < 4) : forwardedBranch cachedOp argv = .fault := by
  have missing : argv[3]? = none := List.getElem?_eq_none (by omega)
  rw [forwardedBranch,missing]
  cases argv[1]? <;> rfl

theorem argumentsRead (long : 4 ≤ argv.length) : ∃ stamp key, argv[1]? = some stamp ∧ argv[3]? = some key :=
  ⟨_,_,List.getElem?_eq_getElem (by omega),List.getElem?_eq_getElem (by omega)⟩

theorem branchStale (newer : Newer cl argv) :
    forwardedBranch (fun slot => (cl.slotStatus slot).cachedOp) argv = .stale := by
  obtain ⟨stamp,key,op,second,fourth,found,later⟩ := newer
  simp only [forwardedBranch,second,fourth,found,if_pos later]

theorem branchInner (long : 4 ≤ argv.length) (fresh : ¬ Newer cl argv) :
    forwardedBranch (fun slot => (cl.slotStatus slot).cachedOp) argv = .inner (argv.drop 2) := by
  obtain ⟨stamp,key,second,fourth⟩ := argumentsRead long
  simp only [forwardedBranch,second,fourth]
  split
  · rename_i op found
    exact if_neg fun later => fresh ⟨stamp,key,op,second,fourth,found,later⟩
  · rfl

theorem notQuit {word magic : Bytes} (same : strncmpEqual word magic 6 = true)
    (other : (cstr magic ++ [0]).head?.map toLower ≠ some 113) : strcasecmpEqual word textQuit = false := by
  by_contra quit
  have first : (cstr word ++ [0]).head? = (cstr magic ++ [0]).head? := by
    have heads := congrArg List.head? (of_decide_eq_true same)
    simpa [List.head?_take] using heads
  rw [Bool.not_eq_false] at quit
  have lower : (cstr word).map toLower = [113,117,105,116] := of_decide_eq_true quit
  obtain ⟨letter,rest,shape,small,_⟩ := List.map_eq_cons_iff.mp lower
  rw [shape] at first
  rw [← first] at other
  exact other (congrArg some small)

end shape

section servers
variable (env : Env) (cl : ClusterState) (c : Client) {argv : List Bytes}

def hotServer : Server Outcome := ⟨magicBranch,dispatch env cl,Outcome.exit,Outcome.cluster⟩

def consistServer : Server ConsistServer.Outcome :=
  ⟨ConsistServer.magicBranch,ConsistServer.dispatch env cl,ConsistServer.Outcome.exit,ConsistServer.Outcome.cluster⟩

theorem hotWord (magic : strncmpEqual (argv.headD []) magicWord 6 = true) (cachedOp : Slot → OpDict) :
    magicBranch cachedOp argv = forwardedBranch cachedOp argv := by
  cases argv with
  | nil => exact absurd magic (by decide)
  | cons word rest => exact if_pos magic

theorem consistWord (magic : strncmpEqual (argv.headD []) ConsistServer.magicWord 6 = true)
    (cachedOp : Slot → OpDict) : ConsistServer.magicBranch cachedOp argv = forwardedBranch cachedOp argv := if_pos magic

theorem laterNotNull {env : Env} {c : Client} {cmd : RedisCommand} {argv : List Bytes} {exit : Exit}
    (later : laterExit env c cmd argv = some exit) : exit ≠ .faulted .nullCluster := by
  rintro rfl
  have served := (CommandPath.laterExitServed later).1
  contradiction

/-- Without cluster mode a command goes past the cluster block. -/
theorem hotAlone (alone : env.clusterEnabled = false) (c : Client) (inner : List Bytes) :
    (dispatch env cl c inner).exit ≠ .faulted .nullCluster := by
  simp only [dispatch,clusterGuard,alone,Bool.false_and,Bool.false_eq_true,if_false,callOrRefuse]
  repeat' split
  all_goals first | exact laterNotNull (by assumption) | simp

theorem consistAlone (alone : env.clusterEnabled = false) (c : Client) (inner : List Bytes) :
    (ConsistServer.dispatch env cl c inner).exit ≠ .faulted .nullCluster := by
  simp only [ConsistServer.dispatch,clusterGuard,alone,Bool.false_and,Bool.false_eq_true,if_false,
    ConsistServer.callOrRefuse]
  repeat' split
  all_goals first | exact laterNotNull (by assumption) | simp

theorem hotBranches (magic : strncmpEqual (argv.headD []) magicWord 6 = true) :
    Branches (hotServer env cl) env cl c argv (processCommand env cl c argv) := by
  have word := hotWord magic fun slot => (cl.slotStatus slot).cachedOp
  have quit := notQuit magic (by decide)
  refine ⟨fun short => word.trans (branchShort _ short),fun long alone => ⟨?_,fun c inner => hotAlone env cl alone c inner⟩,
    fun long newer => ?_,fun long fresh => ?_,fun c inner bad => ?_⟩
  · by_cases newer : Newer cl argv
    · simp only [processCommand,quit,word.trans (branchStale newer),hotServer,followCluster,alone]
      rfl
    · simp only [processCommand,quit,word.trans (branchInner long newer),hotServer,followCluster,alone]
      rfl
  · have stale := word.trans (branchStale newer)
    refine ⟨stale,fun enabled => ?_⟩
    simp only [processCommand,quit,stale,hotServer,followCluster,enabled]
    exact ⟨rfl,rfl⟩
  · have inner := word.trans (branchInner long fresh)
    refine ⟨inner,fun enabled => ?_⟩
    simp only [processCommand,quit,inner,hotServer,followCluster,enabled]
    rfl
  · simp only [hotServer,dispatch]
    split
    · exact ⟨⟨_,rfl⟩,rfl⟩
    · rename_i cmd known
      split
      · exact ⟨⟨_,rfl⟩,rfl⟩
      · rename_i arity
        exact absurd ⟨cmd,known,by simpa using arity⟩ bad

theorem consistBranches (magic : strncmpEqual (argv.headD []) ConsistServer.magicWord 6 = true) :
    Branches (consistServer env cl) env cl c argv (ConsistServer.processCommand env cl c argv) := by
  have word := consistWord magic fun slot => (cl.slotStatus slot).cachedOp
  have quit := notQuit magic (by decide)
  refine ⟨fun short => word.trans (branchShort _ short),
    fun long alone => ⟨?_,fun c inner => consistAlone env cl alone c inner⟩,
    fun long newer => ?_,fun long fresh => ?_,fun c inner bad => ?_⟩
  · by_cases newer : Newer cl argv
    · simp only [ConsistServer.processCommand,quit,word.trans (branchStale newer),consistServer,ConsistServer.followCluster,alone]
      rfl
    · simp only [ConsistServer.processCommand,quit,word.trans (branchInner long newer),consistServer,ConsistServer.followCluster,alone]
      rfl
  · have stale := word.trans (branchStale newer)
    refine ⟨stale,fun enabled => ?_⟩
    simp only [ConsistServer.processCommand,quit,stale,consistServer,ConsistServer.followCluster,enabled]
    exact ⟨rfl,rfl⟩
  · have inner := word.trans (branchInner long fresh)
    refine ⟨inner,fun enabled => ?_⟩
    simp only [ConsistServer.processCommand,quit,inner,consistServer,ConsistServer.followCluster,enabled]
    rfl
  · simp only [consistServer,ConsistServer.dispatch]
    split
    · exact ⟨⟨_,rfl⟩,rfl⟩
    · rename_i cmd known
      split
      · exact ⟨⟨_,rfl⟩,rfl⟩
      · rename_i arity
        exact absurd ⟨cmd,known,by simpa using arity⟩ bad

/-- A vector under the magic word is handled with an answer exactly when it has four arguments, there is
a cluster state to look at and no newer entry waits in it, and it is handled at all exactly when the
first two hold. -/
theorem malformedForwarded (argv : List Bytes) :
    (strncmpEqual (argv.headD []) magicWord 6 = true →
      (Handled (hotServer env cl) Rejects env cl c argv (processCommand env cl c argv) ↔
        4 ≤ argv.length ∧ env.clusterEnabled = true ∧ ¬ Newer cl argv) ∧
      (Handled (hotServer env cl) Silent env cl c argv (processCommand env cl c argv) ↔
        4 ≤ argv.length ∧ env.clusterEnabled = true)) ∧
    (strncmpEqual (argv.headD []) ConsistServer.magicWord 6 = true →
      (Handled (consistServer env cl) Rejects env cl c argv (ConsistServer.processCommand env cl c argv) ↔
        4 ≤ argv.length ∧ env.clusterEnabled = true ∧ ¬ Newer cl argv) ∧
      (Handled (consistServer env cl) Silent env cl c argv (ConsistServer.processCommand env cl c argv) ↔
        4 ≤ argv.length ∧ env.clusterEnabled = true)) := by
  have noAnswer : ¬ Rejects .dropped := nofun
  have quiet : Silent .dropped := .inr rfl
  have faults : ¬ Rejects (.faulted .nullCluster) := nofun
  have loud : ¬ Silent (.faulted .nullCluster) := fun silent => silent.elim faults nofun
  constructor
  · intro magic
    have ways := hotBranches env cl c magic
    exact ⟨(handledIff (fun _ => id) faults ways).trans (and_congr_right fun _ => and_congr_right fun _ =>
      forall_congr' fun _ => iff_false_intro noAnswer),
      (handledIff (fun _ => .inl) loud ways).trans (and_congr_right fun _ => and_iff_left fun _ => quiet)⟩
  · intro magic
    have ways := consistBranches env cl c magic
    exact ⟨(handledIff (fun _ => id) faults ways).trans (and_congr_right fun _ => and_congr_right fun _ =>
      forall_congr' fun _ => iff_false_intro noAnswer),
      (handledIff (fun _ => .inl) loud ways).trans (and_congr_right fun _ => and_iff_left fun _ => quiet)⟩

end servers

def forwardedSet (magic : Bytes) : List Bytes := [magic,[49],textSet,letterK,letterA]

theorem malformedForwardedShown :
    Handled (hotServer (calm (clock 0)) (.initial 1 1)) Rejects (calm (clock 0)) (.initial 1 1) .fresh
      (forwardedSet magicWord) (processCommand (calm (clock 0)) (.initial 1 1) .fresh (forwardedSet magicWord)) ∧
    Handled (consistServer (calm (clock 0)) (.initial 1 1)) Rejects (calm (clock 0)) (.initial 1 1) .fresh
      (forwardedSet ConsistServer.magicWord)
      (ConsistServer.processCommand (calm (clock 0)) (.initial 1 1) .fresh (forwardedSet ConsistServer.magicWord)) := by
  have empty (magic : Bytes) : ¬ Newer (.initial 1 1) (forwardedSet magic) := by
    rintro ⟨_,_,_,_,_,found,_⟩
    simp [ClusterState.initial,SlotState.zeroed] at found
  exact ⟨((malformedForwarded _ _ _ _).1 rfl).1.mpr ⟨by decide,rfl,empty _⟩,
    ((malformedForwarded _ _ _ _).2 rfl).1.mpr ⟨by decide,rfl,empty _⟩⟩

/-- The word alone: the stamp is read behind the end of the vector. -/
theorem bareWordFaults : ¬ ∀ (env : Env) (cl : ClusterState) (c : Client) (argv : List Bytes), 1 ≤ argv.length →
    strncmpEqual (argv.headD []) magicWord 6 = true →
    Handled (hotServer env cl) Silent env cl c argv (processCommand env cl c argv) := by
  intro handled
  have bare := handled (calm (clock 0)) (.initial 1 1) .fresh [magicWord] (by decide) (by decide)
  exact bare.reads rfl

end HpuCache.ForwardedShape
