import HpuCache.ConsistServer
import HpuCache.SlotBatch

/-! RUNMODE and HOTGROUP with their arguments as words, on both servers. Neither command stops
at the error it has found: RUNMODE adds its OK, and HOTGROUP goes on with the index -1. -/
namespace HpuCache.ModeCommands
open ByteText KeySlot KeyedDict CommandCache ServerState GroupCommands ConsistServer
open SlotBatch (getSlotOrReply)

def textRunmode : Bytes := [114,117,110,109,111,100,101]
def textHotgroup : Bytes := [104,111,116,103,114,111,117,112]

/-- A reply is its fixed text, without the argument that is pasted into it. -/
structure Answer (State : Type) where
  state : State
  effects : List Effect
  packet : Option HotGroupMsg
  replies : List String

def forwardKnown (word : Bytes) : Bool := strcasecmpEqual word textAvg || strcasecmpEqual word textSkew

/-- What the two servers do not share: where the cluster is kept, and which synchronisation words there are. -/
structure Server (State : Type) where
  cluster : State → ServerState.ClusterState
  withCluster : State → ServerState.ClusterState → State
  runmode : Bytes → Bytes → State → State × List String
  syncKnown : Bytes → Bool
  replies : ∀ syncWord forwardWord st, if syncKnown syncWord && forwardKnown forwardWord then
    (runmode syncWord forwardWord st).2 = ["OK"] else (runmode syncWord forwardWord st).2.length = 2
  kept : ∀ st, withCluster st (cluster st) = st

theorem forwardReplies (word : Bytes) (cl : ServerState.ClusterState) :
    (setForwardWay word cl).2 = if forwardKnown word then [] else ["Invalid forward way"] := by
  unfold setForwardWay forwardKnown
  split
  · next avg => simp [avg]
  split
  · next skew => simp [skew]
  · next avg skew => simp [avg,skew]

def monitorKnown (word : Bytes) : Bool :=
  strcasecmpEqual word textNo || strcasecmpEqual word text1s || strcasecmpEqual word textImmd

theorem monitorReplies (syncWord forwardWord : Bytes) (cl : ServerState.ClusterState) :
    (GroupCommands.runmodeCommand syncWord forwardWord cl).2 =
      (if monitorKnown syncWord then if forwardKnown forwardWord then [] else ["Invalid forward way"]
        else ["Invalid sync way"]) ++ ["OK"] := by
  simp only [GroupCommands.runmodeCommand,monitorKnown]
  split
  · next no => simp [no,forwardReplies]
  split
  · next second => simp [second,forwardReplies]
  split
  · next immd => simp [immd,forwardReplies]
  · next no second immd => simp [no,second,immd]

def monitor : Server ServerState.ClusterState where
  cluster := id
  withCluster := fun _ cl => cl
  runmode := GroupCommands.runmodeCommand
  syncKnown := monitorKnown
  replies := by
    intro syncWord forwardWord cl
    rw [monitorReplies]
    cases monitorKnown syncWord <;> cases forwardKnown forwardWord <;> simp
  kept := fun _ => rfl

def consist : Server ConsistState where
  cluster := ConsistState.cluster
  withCluster := fun st cl => { st with cluster := cl }
  runmode := ConsistServer.runmodeCommand
  syncKnown := fun word => (syncWay word).isSome
  replies := by
    intro syncWord forwardWord st
    cases known : forwardKnown forwardWord <;> cases chosen : syncWay syncWord <;>
      simp [ConsistServer.runmodeCommand,chosen,forwardReplies,known]
  kept := fun _ => rfl

section
variable {State : Type}

/-- The branches of the two subcommands, and the last one; the branches of the others are left out. -/
def clusterCommand (server : Server State) (order : IterOrder CacheOps) (clusterEnabled : Bool) (argv : List Bytes)
    (st : State) : Except Fault (Answer State) :=
  let refuse (text : String) : Except Fault (Answer State) := .ok ⟨st,[],none,[text]⟩
  if clusterEnabled = false then refuse "This instance has cluster support disabled"
  else match argv with
    | [_,subcommand,first,second] =>
      if strcasecmpEqual subcommand textRunmode then
        let moded := server.runmode first second st
        .ok ⟨moded.1,[],none,moded.2⟩
      else if strcasecmpEqual subcommand textHotgroup then do
        let done ← hotgroupCommand order first (getSlotOrReply second) (server.cluster st)
        .ok ⟨server.withCluster st done.cluster,done.effects,done.packet,done.replies⟩
      else refuse "Unknown subcommand or wrong number of arguments for"
    | _ => refuse "Unknown subcommand or wrong number of arguments for"

def Named (argv : List Bytes) : Prop :=
  ∃ subcommand, argv[1]? = some subcommand ∧
    (strcasecmpEqual subcommand textRunmode = true ∨ strcasecmpEqual subcommand textHotgroup = true)

/-- One reply, no index outside the table, and an error has changed and sent nothing. -/
def Atomic (st : State) (run : Except Fault (Answer State)) : Prop :=
  ∃ answer, run = .ok answer ∧ answer.replies.length = 1 ∧
    (answer.replies ≠ ["OK"] → answer.state = st ∧ answer.effects = [] ∧ answer.packet = none)

def Accepted (server : Server State) (argv : List Bytes) : Prop :=
  ∀ first second, argv.drop 2 = [first,second] →
    if strcasecmpEqual (argv[1]?.getD []) textRunmode then server.syncKnown first ∧ forwardKnown second
    else (getSlotOrReply second).isSome

theorem refusedAtomic {st : State} {text : String} : Atomic st (.ok ⟨st,[],none,[text]⟩) :=
  ⟨_,rfl,rfl,fun _ => ⟨rfl,rfl,rfl⟩⟩

theorem runmodeAtomic (server : Server State) (first second : Bytes) (st : State) :
    Atomic st (.ok ⟨(server.runmode first second st).1,[],none,(server.runmode first second st).2⟩) ↔
      server.syncKnown first = true ∧ forwardKnown second = true := by
  have replies := server.replies first second st
  rw [← Bool.and_eq_true]
  constructor
  · rintro ⟨_,result,single,-⟩
    cases result
    by_contra unknown
    rw [if_neg unknown] at replies
    exact absurd (replies.symm.trans single) (by decide)
  · intro known
    rw [if_pos known] at replies
    exact ⟨_,rfl,by rw [replies]; rfl,fun refused => absurd replies refused⟩

/-- The command on a slot; a word that is neither of the two is refused. -/
theorem hotgroupSlot (order : IterOrder CacheOps) (word : Bytes) (slot : Slot) (cl : ServerState.ClusterState) :
    ∃ done, hotgroupCommand order word (some slot) cl = .ok done ∧ done.replies.length = 1 ∧
      (done.replies ≠ ["OK"] → done.cluster = cl ∧ done.effects = [] ∧ done.packet = none) := by
  by_cases add : strcasecmpEqual word textAdd = true
  · obtain ⟨related,added,-⟩ := addNodeOk cl.myself (cl.slotStatus slot)
    simp only [hotgroupCommand,if_pos add,added]
    exact ⟨_,rfl,rfl,fun refused => absurd rfl refused⟩
  by_cases del : strcasecmpEqual word textDel = true
  · obtain ⟨related,deleted,-⟩ := delNodeOk cl.myself (flushIfCounted order cl.myself slot
      { cl.slotStatus slot with isCopied := false, isCopying := false, isSynced := false }).1
    simp only [hotgroupCommand,if_neg add,if_pos del,deleted]
    exact ⟨_,rfl,rfl,fun refused => absurd rfl refused⟩
  · simp only [hotgroupCommand,if_neg add,if_neg del]
    exact ⟨_,rfl,rfl,fun _ => ⟨rfl,rfl,rfl⟩⟩

/-- A text that is no slot: an index of -1, or three replies. -/
theorem hotgroupNoSlot (order : IterOrder CacheOps) (word : Bytes) (cl : ServerState.ClusterState) {done : GroupResult}
    (result : hotgroupCommand order word none cl = .ok done) : done.replies.length = 3 := by
  by_cases add : strcasecmpEqual word textAdd = true
  · simp only [hotgroupCommand,if_pos add] at result
    exact nomatch result
  by_cases del : strcasecmpEqual word textDel = true
  · simp only [hotgroupCommand,if_neg add,if_pos del] at result
    exact nomatch result
  · simp only [hotgroupCommand,if_neg add,if_neg del] at result
    cases result
    rfl

theorem hotgroupAtomic (server : Server State) (order : IterOrder CacheOps) (word text : Bytes) (st : State) :
    Atomic st (hotgroupCommand order word (getSlotOrReply text) (server.cluster st) >>= fun done =>
      .ok ⟨server.withCluster st done.cluster,done.effects,done.packet,done.replies⟩) ↔
      (getSlotOrReply text).isSome = true := by
  cases getSlotOrReply text with
  | none =>
    refine iff_of_false ?_ (by simp)
    rintro ⟨answer,run,single,-⟩
    obtain ⟨done,result,last⟩ := FaultRun.bindOk.mp run
    have three := hotgroupNoSlot order word _ result
    cases last
    exact absurd (three.symm.trans single) (by decide)
  | some slot =>
    obtain ⟨done,result,single,refused⟩ := hotgroupSlot order word slot (server.cluster st)
    refine iff_of_true ?_ rfl
    rw [result]
    refine ⟨_,rfl,single,fun error => ?_⟩
    obtain ⟨cluster,effects,packet⟩ := refused error
    exact ⟨by rw [cluster,server.kept],effects,packet⟩

theorem commandAtomic (server : Server State) {argv : List Bytes} (named : Named argv) (order : IterOrder CacheOps)
    (clusterEnabled : Bool) (st : State) :
    Atomic st (clusterCommand server order clusterEnabled argv st) ↔ clusterEnabled = true → Accepted server argv := by
  cases clusterEnabled with
  | false => exact iff_of_true refusedAtomic (by simp)
  | true =>
    simp only [clusterCommand,Bool.true_eq_false,if_false,forall_const]
    split
    · next name subcommand first second =>
      have words : Accepted server [name,subcommand,first,second] ↔
          if strcasecmpEqual subcommand textRunmode then server.syncKnown first = true ∧ forwardKnown second = true
          else (getSlotOrReply second).isSome = true := by
        simp [Accepted]
      rw [words]
      split
      · exact runmodeAtomic server first second st
      · next other =>
        obtain ⟨_,here,named⟩ := named
        cases Option.some.inj here
        rw [if_pos (named.resolve_left other)]
        exact hotgroupAtomic server order first second st
    · next short =>
      refine iff_of_true refusedAtomic fun first second rest => ?_
      obtain ⟨subcommand,here,-⟩ := named
      match argv,rest,here with
      | [name,subcommand,_,_],rfl,_ => exact absurd rfl (short name subcommand first second)

end

/-- Both commands on both servers: an argument that they do not take is answered twice, or worse. -/
theorem modesAtomic {argv : List Bytes} (named : Named argv) (order : IterOrder CacheOps) (clusterEnabled : Bool) :
    (∀ cl, Atomic cl (clusterCommand monitor order clusterEnabled argv cl) ↔
      clusterEnabled = true → Accepted monitor argv) ∧
    ∀ st, Atomic st (clusterCommand consist order clusterEnabled argv st) ↔
      clusterEnabled = true → Accepted consist argv :=
  ⟨commandAtomic monitor named order clusterEnabled,commandAtomic consist named order clusterEnabled⟩

def syncing : ConsistState := ⟨.initial 1 1,fun _ => false,0⟩

/-- The word `05` selects a cadence, on the second server only. -/
theorem modesAtomicShown :
    Atomic syncing (clusterCommand consist .asStored true [[],textRunmode,[48,53],textAvg] syncing) ∧
      ¬ Atomic syncing.cluster (clusterCommand monitor .asStored true [[],textRunmode,[48,53],textAvg] syncing.cluster) := by
  have named : Named [[],textRunmode,[48,53],textAvg] := ⟨_,rfl,by decide⟩
  obtain ⟨first,second⟩ := modesAtomic named .asStored true
  refine ⟨(second syncing).mpr fun _ sync forward words => ?_,fun atomic => ?_⟩
  · cases words
    decide
  · exact absurd ((first _).mp atomic rfl _ _ rfl) (by decide)

/-- A bad forward word has switched the synchronisation off, and is answered twice; a slot beyond the last one is
the index -1. -/
theorem badWordSwitches :
    (∃ answer, clusterCommand monitor .asStored true [[],textRunmode,textNo,[120]] syncing.cluster = .ok answer ∧
      answer.replies = ["Invalid forward way","OK"] ∧ answer.state.isSync = false) ∧
    clusterCommand monitor .asStored true [[],textHotgroup,textAdd,[49,54,51,56,52]] syncing.cluster =
      .error .slotOutOfRange ∧
    ¬ Atomic syncing.cluster (clusterCommand monitor .asStored true [[],textRunmode,textNo,[120]] syncing.cluster) := by
  have refused : clusterCommand monitor .asStored true [[],textRunmode,textNo,[120]] syncing.cluster =
      .ok ⟨{ syncing.cluster with isSync := false, syncTime := false },[],none,["Invalid forward way","OK"]⟩ := by
    rfl
  refine ⟨⟨_,refused,rfl,rfl⟩,rfl,?_⟩
  rintro ⟨answer,run,single,-⟩
  cases refused.symm.trans run
  exact absurd single (by decide)

end HpuCache.ModeCommands
