import HpuCache.SlotTrace
import Mathlib.Order.Fin.Basic

/-! One member of a hot group: everything that can happen to it, as a step on its
cluster state. What a step does to the cache of a slot is a trace, and what it does
to the membership and the flags of the slot is one of a few updates. -/
namespace HpuCache.MemberStep
open ByteText KeySlot KeyedDict CommandCache ServerState GroupCommands NodeQuery ProcessCommand SlotTrace

inductive MemberEvent where
  | command (env : Env) (client : Client) (argv : List Bytes)
  | cron (iteration : Nat) (orders : Slot → IterOrder CacheOps)
  | runmode (syncWay forwardWay : Bytes)
  | hotgroup (order : IterOrder CacheOps) (word : Bytes) (slot : Slot)
  | setslot (finished : Bool) (slot : Slot)
  | packet (msg : HotGroupMsg)

def MemberEvent.isPacket : MemberEvent → Bool
  | .packet _ => true
  | _ => false

structure MemberResult where
  cluster : ClusterState
  effects : List Effect
  -- The packet that goes to every other node.
  sends : List HotGroupMsg

/-- `nodes` are the nodes that this one knows. -/
def memberStep (nodes : List NodeId) (cl : ClusterState) : MemberEvent → Except Fault MemberResult
  | .command env client argv =>
    let out := processCommand env cl client argv
    match out.exit with
    | .faulted fault => .error fault
    | _ => .ok ⟨out.cluster,out.effects,[]⟩
  | .cron iteration orders =>
    let flushed := clusterCronFlush iteration orders cl
    .ok ⟨flushed.1,flushed.2,[]⟩
  | .runmode syncWay forwardWay => .ok ⟨(runmodeCommand syncWay forwardWay cl).1,[],[]⟩
  | .hotgroup order word slot => do
    let done ← hotgroupCommand order word (some slot) cl
    .ok ⟨done.cluster,done.effects,done.packet.toList⟩
  | .setslot finished slot => .ok ⟨setslotCopyCommand finished slot cl,[],[]⟩
  | .packet msg => do
    let cluster ← hotGroupPacket nodes msg cl
    .ok ⟨cluster,[],[]⟩

inductive GroupWord where | add | del | unknown
  deriving DecidableEq, Repr

def groupWord (word : Bytes) : GroupWord :=
  if strcasecmpEqual word textAdd then .add
  else if strcasecmpEqual word textDel then .del
  else .unknown

section hotgroup
variable (order : IterOrder CacheOps) {word : Bytes} (slot : Slot) (cl : ClusterState)

theorem hotgroupAdd (w : groupWord word = .add) :
    ∃ related, hotgroupCommand order word (some slot) cl =
      .ok ⟨cl.setSlot slot { cl.slotStatus slot with relatedIns := related },[],
        some (clusterBroadcastOwnAsHotInstance cl.myself slot 1),["OK"]⟩ ∧
      ∀ n, related.has n = (decide (cl.myself = n) || (cl.slotStatus slot).relatedIns.has n) := by
  have word : strcasecmpEqual word textAdd = true := by
    unfold groupWord at w
    split at w
    · assumption
    · split at w <;> contradiction
  obtain ⟨related,ok,has⟩ := addNodeOk cl.myself (cl.slotStatus slot)
  refine ⟨related,?_,has⟩
  simp only [hotgroupCommand,if_pos word,ok,bind,Except.bind]

theorem hotgroupDel (w : groupWord word = .del) :
    ∃ st effects, hotgroupCommand order word (some slot) cl =
      .ok ⟨cl.setSlot slot st,effects,
        some (clusterBroadcastOwnAsHotInstance cl.myself slot 2),["OK"]⟩ ∧
      (∀ own, Trace cl.myself (cl.slotStatus slot).relatedIns slot own (cl.slotStatus slot) effects st) ∧
      st.isCopied = false ∧ st.isCopying = false ∧ st.haveCopy = (cl.slotStatus slot).haveCopy ∧
      ∀ n, st.relatedIns.has n = (decide (n ≠ cl.myself) && (cl.slotStatus slot).relatedIns.has n) := by
  have words : ¬ strcasecmpEqual word textAdd = true ∧ strcasecmpEqual word textDel = true := by
    unfold groupWord at w
    split at w
    · contradiction
    · split at w
      · exact ⟨by assumption,by assumption⟩
      · contradiction
  let marked : SlotState :=
    { cl.slotStatus slot with isCopied := false, isCopying := false, isSynced := false }
  have current : marked.relatedIns = (cl.slotStatus slot).relatedIns := rfl
  have trace := fun own => (flushIfCountedTrace cl.myself slot own order current).1
  have kept := (flushIfCountedTrace cl.myself slot (fun _ => False) order current).2
  obtain ⟨related,ok,has⟩ := delNodeOk cl.myself (flushIfCounted order cl.myself slot marked).1
  refine ⟨{ (flushIfCounted order cl.myself slot marked).1 with relatedIns := related },
    (flushIfCounted order cl.myself slot marked).2,?_,?_,kept.copied,kept.copying,kept.have_,?_⟩
  · rw [hotgroupCommand,if_neg words.1,if_pos words.2]
    simp only [bind,Except.bind]
    rw [ok]
  · intro own
    rw [← List.append_nil (flushIfCounted order cl.myself slot marked).2]
    exact .frame (b := marked) rfl rfl ((trace own).append (.idle rfl rfl))
  · intro n
    rw [has n,kept.related]

theorem hotgroupUnknown (w : groupWord word = .unknown) :
    ∃ replies, hotgroupCommand order word (some slot) cl = .ok ⟨cl,[],none,replies⟩ := by
  unfold groupWord at w
  split at w
  · contradiction
  · split at w
    · contradiction
    · rename_i add del
      exact ⟨_,by rw [hotgroupCommand,if_neg add,if_neg del]⟩

end hotgroup

/-- The entries an event may add are those of its own command. -/
def MemberEvent.Adds : MemberEvent → CacheOps → Prop
  | .command env _ argv, op => OwnOf env argv op
  | _, _ => False

def memberAfter (myself : NodeId) (slot : Slot) (node : NodeId) : MemberEvent → Bool → Bool
  | .hotgroup _ word s, before =>
    if s = slot ∧ node = myself then
      match groupWord word with
      | .add => true
      | .del => false
      | .unknown => before
    else before
  | .packet msg, before =>
    if msg.slot.toNat = slot.val ∧ node = msg.nodename then
      if msg.status = 1 then true else if msg.status = 2 then false else before
    else before
  | _, before => before

/-- The flags of a slot that steer its copying. -/
structure Flags where
  copied : Bool
  haveCopy : Bool
  copying : Bool
  deriving DecidableEq

def flagsOf (st : SlotState) : Flags := ⟨st.isCopied,st.haveCopy,st.isCopying⟩

def flagsAfter (isSlave : Bool) (slot : Slot) : MemberEvent → Flags → Flags
  | .hotgroup _ word s, before =>
    if s = slot ∧ groupWord word = .del then ⟨false,before.haveCopy,false⟩ else before
  | .setslot finished s, before =>
    if s = slot ∧ isSlave = false then ⟨finished,finished,!finished⟩ else before
  | .packet msg, before =>
    if msg.slot.toNat = slot.val ∧ msg.status = 1 then ⟨true,before.haveCopy,before.copying⟩ else before
  | _, before => before

theorem flagsKept {a b : SlotState} (kept : Kept a b) : flagsOf b = flagsOf a := by
  rw [flagsOf,kept.copied,kept.have_,kept.copying,flagsOf]

def packetsOf (myself : NodeId) : MemberEvent → List HotGroupMsg
  | .hotgroup _ word slot =>
    match groupWord word with
    | .add => [clusterBroadcastOwnAsHotInstance myself slot 1]
    | .del => [clusterBroadcastOwnAsHotInstance myself slot 2]
    | .unknown => []
  | _ => []

/-- The parts of the cluster state that no event of a member touches. -/
structure SameTables (a b : ClusterState) : Prop where
  myself : b.myself = a.myself
  stateOk : b.stateOk = a.stateOk
  slots : b.slots = a.slots
  migrating : b.migratingSlotsTo = a.migratingSlotsTo
  importing : b.importingSlotsFrom = a.importingSlotsFrom
  isSlave : b.isSlave = a.isSlave
  slaveof : b.slaveof = a.slaveof

theorem sameTablesOf {a b : ClusterState} (shape : ∃ status isSync syncTime forwardTime,
    b = { a with slotStatus := status, isSync := isSync, syncTime := syncTime, forwardTime := forwardTime }) :
    SameTables a b := by
  obtain ⟨_,_,_,_,rfl⟩ := shape
  exact ⟨rfl,rfl,rfl,rfl,rfl,rfl,rfl⟩

theorem sameTablesSlot (cl : ClusterState) (slot : Slot) (st : SlotState) :
    SameTables cl (cl.setSlot slot st) := ⟨rfl,rfl,rfl,rfl,rfl,rfl,rfl⟩

/-- Everything an event of a member can do. -/
structure MemberSpec (cl : ClusterState) (event : MemberEvent) (r : MemberResult) : Prop where
  tables : SameTables cl r.cluster
  modes : (∀ syncWay forwardWay, event ≠ .runmode syncWay forwardWay) →
    r.cluster.isSync = cl.isSync ∧ r.cluster.syncTime = cl.syncTime
  trace : ∀ s, Trace cl.myself (cl.slotStatus s).relatedIns s event.Adds (cl.slotStatus s)
    (r.effects.filter (fun e => e.slot = s)) (r.cluster.slotStatus s)
  member : ∀ s n, (r.cluster.slotStatus s).relatedIns.has n =
    memberAfter cl.myself s n event ((cl.slotStatus s).relatedIns.has n)
  flags : ∀ s, flagsOf (r.cluster.slotStatus s) = flagsAfter cl.isSlave s event (flagsOf (cl.slotStatus s))
  sends : r.sends = packetsOf cl.myself event

theorem slotSpec {cl : ClusterState} {event : MemberEvent} {t : Slot} {st : SlotState}
    {es : List Effect} {sends : List HotGroupMsg}
    (trace : Trace cl.myself (cl.slotStatus t).relatedIns t event.Adds (cl.slotStatus t) es st)
    (member : ∀ n, st.relatedIns.has n = memberAfter cl.myself t n event ((cl.slotStatus t).relatedIns.has n))
    (flags : flagsOf st = flagsAfter cl.isSlave t event (flagsOf (cl.slotStatus t)))
    (away : ∀ s, s ≠ t → (∀ n b, memberAfter cl.myself s n event b = b) ∧
      ∀ f, flagsAfter cl.isSlave s event f = f)
    (packets : sends = packetsOf cl.myself event) :
    MemberSpec cl event ⟨cl.setSlot t st,es,sends⟩ := by
  refine ⟨sameTablesSlot cl t st,fun _ => ⟨rfl,rfl⟩,traceAt trace,?_,?_,packets⟩
  · intro s n
    by_cases same : s = t
    · subst same
      simpa using member n
    · simp only [setSlotOther cl st same,(away s same).1]
  · intro s
    by_cases same : s = t
    · subst same
      simpa using flags
    · simp only [setSlotOther cl st same,(away s same).2]

theorem commandSpec (env : Env) (client : Client) (argv : List Bytes) (cl : ClusterState) :
    MemberSpec cl (.command env client argv)
      ⟨(processCommand env cl client argv).cluster,(processCommand env cl client argv).effects,[]⟩ := by
  obtain ⟨status,shape⟩ := processFrame env cl client argv
  exact ⟨sameTablesOf ⟨status,_,_,_,shape⟩,fun _ => by rw [shape]; exact ⟨rfl,rfl⟩,
    fun s => (processTrace env cl client argv s).1,
    fun s n => by rw [(processTrace env cl client argv s).2.related]; rfl,
    fun s => flagsKept (processTrace env cl client argv s).2,rfl⟩

theorem cronFlushTrace (order : IterOrder CacheOps) (myself : NodeId) (slot : Slot)
    (own : CacheOps → Prop) (st : SlotState) :
    Trace myself st.relatedIns slot own st (cronFlushSlot order myself slot st).2
      (cronFlushSlot order myself slot st).1 ∧
    Kept st (cronFlushSlot order myself slot st).1 := by
  unfold cronFlushSlot
  split
  · exact flushIfCountedTrace myself slot own order rfl
  · exact ⟨.done st,.refl st⟩

theorem filterSlots {effects : Slot → List Effect} (own : ∀ t, ∀ e ∈ effects t, e.slot = t)
    {slots : List Slot} (distinct : slots.Nodup) (s : Slot) :
    (slots.flatMap effects).filter (fun e => e.slot = s) = if s ∈ slots then effects s else [] := by
  induction slots with
  | nil => simp
  | cons t rest ih =>
    obtain ⟨fresh,distinct⟩ := List.nodup_cons.mp distinct
    rw [List.flatMap_cons,List.filter_append,ih distinct]
    by_cases same : s = t
    · subst same
      have all : (effects s).filter (fun e => e.slot = s) = effects s :=
        List.filter_eq_self.mpr (by simpa using own s)
      simp [all,fresh]
    · have none : (effects t).filter (fun e => e.slot = s) = [] := by
        apply List.filter_eq_nil_iff.mpr
        intro e member
        rw [own t e member]
        simpa using fun h => same h.symm
      simp [none,same]

theorem cronSpec (iteration : Nat) (orders : Slot → IterOrder CacheOps) (cl : ClusterState) :
    MemberSpec cl (.cron iteration orders)
      ⟨(clusterCronFlush iteration orders cl).1,(clusterCronFlush iteration orders cl).2,[]⟩ := by
  have flushed := fun s => cronFlushTrace (orders s) cl.myself s
    (MemberEvent.Adds (.cron iteration orders)) (cl.slotStatus s)
  unfold clusterCronFlush
  split
  · refine ⟨sameTablesOf ⟨_,_,_,_,rfl⟩,fun _ => ⟨rfl,rfl⟩,fun s => ?_,fun s n => ?_,fun s => ?_,rfl⟩
    · dsimp only
      rw [filterSlots (fun t => traceSlots (flushed t).1) (List.nodup_finRange _) s,
        if_pos (List.mem_finRange s)]
      exact (flushed s).1
    · simp only [(flushed s).2.related,memberAfter]
    · exact flagsKept (flushed s).2
  · exact ⟨sameTablesOf ⟨_,_,_,_,rfl⟩,fun _ => ⟨rfl,rfl⟩,fun s => .done _,fun s n => rfl,fun s => rfl,rfl⟩

theorem runmodeFrame (syncWay forwardWay : Bytes) (cl : ClusterState) :
    ∃ isSync syncTime forwardTime, (runmodeCommand syncWay forwardWay cl).1 =
      { cl with isSync := isSync, syncTime := syncTime, forwardTime := forwardTime } := by
  have way : ∀ cl : ClusterState, ∃ forwardTime, (setForwardWay forwardWay cl).1 =
      { cl with forwardTime := forwardTime } := by
    intro cl
    unfold setForwardWay
    split
    · exact ⟨_,rfl⟩
    · split <;> exact ⟨_,rfl⟩
  unfold runmodeCommand
  dsimp only
  split
  · obtain ⟨f,shape⟩ := way { cl with isSync := false, syncTime := false }
    exact ⟨_,_,f,shape⟩
  split
  · obtain ⟨f,shape⟩ := way { cl with isSync := true, syncTime := true }
    exact ⟨_,_,f,shape⟩
  split
  · obtain ⟨f,shape⟩ := way { cl with isSync := true, syncTime := false }
    exact ⟨_,_,f,shape⟩
  · exact ⟨_,_,_,rfl⟩

theorem runmodeSpec (syncWay forwardWay : Bytes) (cl : ClusterState) :
    MemberSpec cl (.runmode syncWay forwardWay) ⟨(runmodeCommand syncWay forwardWay cl).1,[],[]⟩ := by
  obtain ⟨isSync,syncTime,forwardTime,shape⟩ := runmodeFrame syncWay forwardWay cl
  rw [shape]
  exact ⟨sameTablesOf ⟨_,_,_,_,rfl⟩,fun other => absurd rfl (other _ _),fun s => .done _,fun s n =>
    rfl,fun s => rfl,rfl⟩

theorem runmodeModes (syncWay forwardWay : Bytes) (cl : ClusterState) :
    (strcasecmpEqual syncWay textNo = false → cl.isSync = true →
      (runmodeCommand syncWay forwardWay cl).1.isSync = true) ∧
    (strcasecmpEqual syncWay text1s = false → cl.syncTime = false →
      (runmodeCommand syncWay forwardWay cl).1.syncTime = false) := by
  have way : ∀ cl : ClusterState, (setForwardWay forwardWay cl).1.isSync = cl.isSync ∧
      (setForwardWay forwardWay cl).1.syncTime = cl.syncTime := by
    intro cl
    unfold setForwardWay
    split
    · exact ⟨rfl,rfl⟩
    · split <;> exact ⟨rfl,rfl⟩
  unfold runmodeCommand
  dsimp only
  split
  · rename_i no
    exact ⟨fun other => absurd no (by simp [other]),fun _ _ => (way _).2⟩
  split
  · rename_i timed
    exact ⟨fun _ _ => (way _).1,fun other => absurd timed (by simp [other])⟩
  split
  · exact ⟨fun _ _ => (way _).1,fun _ _ => (way _).2⟩
  · exact ⟨fun _ sync => sync,fun _ time => time⟩

theorem setslotSpec (finished : Bool) (slot : Slot) (cl : ClusterState) :
    MemberSpec cl (.setslot finished slot) ⟨setslotCopyCommand finished slot cl,[],[]⟩ := by
  have away : ∀ s, s ≠ slot → (∀ n b, memberAfter cl.myself s n (.setslot finished slot) b = b) ∧
      ∀ f, flagsAfter cl.isSlave s (.setslot finished slot) f = f :=
    fun s other => ⟨fun _ _ => rfl,fun _ => if_neg (fun h => other h.1.symm)⟩
  unfold setslotCopyCommand
  by_cases slave : cl.isSlave = true
  · rw [if_pos slave]
    exact ⟨sameTablesOf ⟨_,_,_,_,rfl⟩,fun _ => ⟨rfl,rfl⟩,fun s => .done _,fun s n => rfl,
      fun s => by simp [flagsAfter,slave],rfl⟩
  · have master : cl.isSlave = false := by simpa using slave
    rw [if_neg slave]
    cases finished with
    | true =>
      exact slotSpec (.idle rfl rfl) (fun n => rfl) (by simp [flagsAfter,master,setslotFincopy,flagsOf])
        away rfl
    | false =>
      exact slotSpec (.idle rfl rfl) (fun n => rfl) (by simp [flagsAfter,master,setslotCopying,flagsOf])
        away rfl

theorem hotgroupSpec (nodes : List NodeId) (order : IterOrder CacheOps) (word : Bytes) (slot : Slot)
    (cl : ClusterState) :
    ∃ r, memberStep nodes cl (.hotgroup order word slot) = .ok r ∧
      MemberSpec cl (.hotgroup order word slot) r := by
  have away : ∀ s, s ≠ slot → (∀ n b, memberAfter cl.myself s n (.hotgroup order word slot) b = b) ∧
      ∀ f, flagsAfter cl.isSlave s (.hotgroup order word slot) f = f :=
    fun s other => ⟨fun _ _ => if_neg (fun h => other h.1.symm),fun _ => if_neg (fun h => other h.1.symm)⟩
  cases w : groupWord word with
  | add =>
    obtain ⟨related,ok,has⟩ := hotgroupAdd order slot cl w
    refine ⟨_,by simp only [memberStep,ok]; rfl,?_⟩
    refine slotSpec (.idle rfl rfl) (fun n => ?_) (by simp [flagsAfter,w,flagsOf]) away
      (by simp [packetsOf,w])
    rw [has n]
    by_cases own : n = cl.myself
    · simp [memberAfter,w,own]
    · simp [memberAfter,own,Ne.symm own]
  | del =>
    obtain ⟨st,effects,ok,trace,copied,copying,haveCopy,has⟩ := hotgroupDel order slot cl w
    refine ⟨_,by simp only [memberStep,ok]; rfl,?_⟩
    refine slotSpec (trace _) (fun n => ?_) (by simp [flagsAfter,w,flagsOf,copied,copying,haveCopy]) away
      (by simp [packetsOf,w])
    rw [has n]
    by_cases own : n = cl.myself <;> simp [memberAfter,w,own]
  | unknown =>
    obtain ⟨replies,ok⟩ := hotgroupUnknown order slot cl w
    refine ⟨_,by simp only [memberStep,ok]; rfl,?_⟩
    exact ⟨sameTablesOf ⟨_,_,_,_,rfl⟩,fun _ => ⟨rfl,rfl⟩,fun s => .done _,fun s n => by simp [memberAfter,w],
      fun s => by simp [flagsAfter,w],by simp [packetsOf,w]⟩

/-- A packet as the senders of this program build it. -/
structure PacketSound (nodes : List NodeId) (msg : HotGroupMsg) : Prop where
  known : msg.nodename ∈ nodes
  slot : msg.slot.toNat < 16384
  status : msg.status = 1 ∨ msg.status = 2

theorem packetSpec {nodes : List NodeId} {msg : HotGroupMsg} (sound : PacketSound nodes msg)
    (cl : ClusterState) :
    ∃ r, memberStep nodes cl (.packet msg) = .ok r ∧ MemberSpec cl (.packet msg) r := by
  obtain ⟨known,inside,status⟩ := sound
  have away : ∀ s, s ≠ (⟨msg.slot.toNat,inside⟩ : Slot) →
      (∀ n b, memberAfter cl.myself s n (.packet msg) b = b) ∧
      ∀ f, flagsAfter cl.isSlave s (.packet msg) f = f :=
    fun s other => ⟨fun _ _ => if_neg (fun h => other (Fin.ext h.1.symm)),
      fun _ => if_neg (fun h => other (Fin.ext h.1.symm))⟩
  rcases status with one | two
  · obtain ⟨related,ok,has⟩ := hotGroupUpdateAdd msg.nodename (cl.slotStatus ⟨msg.slot.toNat,inside⟩)
    refine ⟨⟨cl.setSlot ⟨msg.slot.toNat,inside⟩ _,[],[]⟩,
      by simp only [memberStep,hotGroupPacket,if_pos known,dif_pos inside,one,ok]; rfl,?_⟩
    refine slotSpec (.idle rfl rfl) (fun n => ?_) (by simp [flagsAfter,one,flagsOf]) away rfl
    rw [has n]
    by_cases own : n = msg.nodename
    · simp [memberAfter,one,own]
    · simp [memberAfter,own,Ne.symm own]
  · obtain ⟨related,ok,has⟩ := hotGroupUpdateDel msg.nodename (cl.slotStatus ⟨msg.slot.toNat,inside⟩)
    refine ⟨⟨cl.setSlot ⟨msg.slot.toNat,inside⟩ _,[],[]⟩,
      by simp only [memberStep,hotGroupPacket,if_pos known,dif_pos inside,two,ok]; rfl,?_⟩
    refine slotSpec (.idle rfl rfl) (fun n => ?_) (by simp [flagsAfter,two,flagsOf]) away rfl
    rw [has n]
    by_cases own : n = msg.nodename <;> simp [memberAfter,two,own]

theorem packetIdle {nodes : List NodeId} {msg : HotGroupMsg} {cl : ClusterState} {r : MemberResult}
    (unsound : ¬ PacketSound nodes msg) (ok : memberStep nodes cl (.packet msg) = .ok r) :
    r = ⟨cl,[],[]⟩ ∧ ¬ (msg.status = 1 ∨ msg.status = 2) := by
  have step : ∃ cl', hotGroupPacket nodes msg cl = .ok cl' ∧ r = ⟨cl',[],[]⟩ := by
    simp only [memberStep,bind,Except.bind] at ok
    split at ok <;> try contradiction
    rename_i cl' same
    exact ⟨cl',same,(Except.ok.inj ok).symm⟩
  obtain ⟨cl',handled,rfl⟩ := step
  unfold hotGroupPacket at handled
  split at handled <;> try contradiction
  rename_i known
  split at handled
  · rename_i inside
    have other : ¬ (msg.status = 1 ∨ msg.status = 2) := fun status => unsound ⟨known,inside,status⟩
    have ignored : hotGroupUpdate msg.status msg.nodename (cl.slotStatus ⟨msg.slot.toNat,inside⟩) =
        .ok (cl.slotStatus ⟨msg.slot.toNat,inside⟩) := by
      unfold hotGroupUpdate
      rw [if_neg (fun h => other (.inl h)),if_neg (fun h => other (.inr h))]
    simp only [ignored,bind,Except.bind,setSlotIdle,Except.ok.injEq] at handled
    exact ⟨by rw [handled],other⟩
  · split at handled <;> try contradiction
    rename_i other
    cases Except.ok.inj handled
    exact ⟨rfl,other⟩

theorem memberStepSpec {nodes : List NodeId} {cl : ClusterState} {event : MemberEvent} {r : MemberResult}
    (ok : memberStep nodes cl event = .ok r) : MemberSpec cl event r := by
  cases event with
  | command env client argv =>
    have same : r = ⟨(processCommand env cl client argv).cluster,
        (processCommand env cl client argv).effects,[]⟩ := by
      simp only [memberStep] at ok
      split at ok <;> try contradiction
      exact (Except.ok.inj ok).symm
    rw [same]
    exact commandSpec env client argv cl
  | cron iteration orders =>
    cases Except.ok.inj ok
    exact cronSpec iteration orders cl
  | runmode syncWay forwardWay =>
    cases Except.ok.inj ok
    exact runmodeSpec syncWay forwardWay cl
  | hotgroup order word slot =>
    obtain ⟨r',ok',spec⟩ := hotgroupSpec nodes order word slot cl
    cases Except.ok.inj (ok.symm.trans ok')
    exact spec
  | setslot finished slot =>
    cases Except.ok.inj ok
    exact setslotSpec finished slot cl
  | packet msg =>
    by_cases sound : PacketSound nodes msg
    · obtain ⟨r',ok',spec⟩ := packetSpec sound cl
      cases Except.ok.inj (ok.symm.trans ok')
      exact spec
    · obtain ⟨rfl,other⟩ := packetIdle sound ok
      have one : msg.status ≠ 1 := fun h => other (.inl h)
      have two : msg.status ≠ 2 := fun h => other (.inr h)
      exact ⟨sameTablesOf ⟨_,_,_,_,rfl⟩,fun _ => ⟨rfl,rfl⟩,fun s => .done _,fun s n => by simp [memberAfter,one,two],
        fun s => by simp [flagsAfter,one],rfl⟩

end HpuCache.MemberStep
