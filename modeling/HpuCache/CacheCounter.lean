import HpuCache.CommandTrip
import HpuCache.LosslessFlush

/-! The counter of a slot's command cache against the number of its entries. An addition
counts one more, also where the dictionary only replaces the entry of the key. -/
namespace HpuCache.CacheCounter
open ByteText KeySlot KeyedDict CommandCache ServerState ProcessCommand GroupCommands SlotTrace MemberStep
open EventRun CommandTable FanOut CommandTrip LosslessFlush

/-- The calls that change the cache of one slot. A broadcast goes to the members of that moment. -/
inductive CacheCall where
  | addCmdToCache (now : Ustime) (argv : List Bytes)
  | broadcastCommandInHotGroup (order : IterOrder CacheOps) (related : Roster)

def cacheCall (myself : NodeId) (st : SlotState) : CacheCall → Option SlotState
  | .addCmdToCache now argv => addCmdToCache now argv st
  | .broadcastCommandInHotGroup order related =>
    some (broadcastCommandInHotGroup order myself { st with relatedIns := related }).1

/-- The counter is the number of entries, and its test says whether there is something to flush. -/
structure Counted (st : SlotState) : Prop where
  size : st.cacheOpSize = st.cachedOp.size
  flush : st.cacheOpSize > 0 ↔ st.cachedOp.entries ≠ []
instance (st) : Decidable (Counted st) :=
  decidable_of_iff (st.cacheOpSize = st.cachedOp.size ∧ (st.cacheOpSize > 0 ↔ st.cachedOp.entries ≠ []))
    ⟨fun h => ⟨h.1,h.2⟩,fun h => ⟨h.size,h.flush⟩⟩

/-- No entry waits under the key of the command. -/
def fresh (st : SlotState) : CacheCall → Bool
  | .addCmdToCache _ argv => !argv[1]?.any (fun key => st.cachedOp.has (cstr key))
  | .broadcastCommandInHotGroup .. => true

def Fresh (st : SlotState) (call : CacheCall) : Prop := fresh st call = true

/-- How far the counter is ahead. -/
def slack (st : SlotState) : Int := st.cacheOpSize - st.cachedOp.size

theorem countedIff (st : SlotState) : Counted st ↔ slack st = 0 := by
  constructor
  · intro counted
    have same := counted.size
    simp only [slack]
    omega
  · intro even
    have same : st.cacheOpSize = st.cachedOp.size := by
      simp only [slack] at even
      omega
    refine ⟨same,?_⟩
    rw [same,Dict.size]
    cases st.cachedOp.entries <;> simp

theorem slackAdded (op : CacheOps) (st : SlotState) :
    slack (added op st) = if st.cachedOp.has op.key then slack st + 1 else slack st := by
  simp only [slack,added]
  split
  · rename_i waiting
    obtain ⟨old,inside,same⟩ := (Dict.hasIff _ _).mp waiting
    have shrink := Dict.sizeDelete inside
    rw [same] at shrink
    simp only [Dict.sizeReplace]
    omega
  · rename_i absent
    rw [Dict.sizeReplace,Dict.deleteIdle (by simpa using absent)]
    omega

theorem slackBroadcast (order : IterOrder CacheOps) (myself : NodeId) {st : SlotState} (bounded : Bounded st) :
    slack (broadcastCommandInHotGroup order myself st).1 = slack st := by
  rw [broadcastAll order myself st bounded]
  simp [slack]

section calls
variable {myself : NodeId} {st next : SlotState} {call : CacheCall}

theorem callBounded (taken : Takes (cacheCall myself) st call next) (bounded : Bounded st) : Bounded next := by
  cases call with
  | addCmdToCache now argv =>
    obtain ⟨op,_,rfl⟩ := addedEntry taken
    exact addedBounded op bounded
  | broadcastCommandInHotGroup order related =>
    cases Option.some.inj taken
    exact broadcastBounded order myself _ bounded

/-- The one way to get ahead is an addition under a key that waits already. -/
theorem callSlack (taken : Takes (cacheCall myself) st call next) (bounded : Bounded st) :
    slack next = if fresh st call then slack st else slack st + 1 := by
  cases call with
  | addCmdToCache now argv =>
    obtain ⟨op,built,rfl⟩ := addedEntry taken
    obtain ⟨word,key,rest,rfl,_,own⟩ := entryShape built
    have waits : fresh st (.addCmdToCache now (word :: key :: rest)) = !st.cachedOp.has op.key := by
      rw [own]
      rfl
    rw [waits]
    cases same : st.cachedOp.has op.key
    · exact (slackAdded op st).trans (by simp [same])
    · exact (slackAdded op st).trans (by simp [same])
  | broadcastCommandInHotGroup order related =>
    cases Option.some.inj taken
    exact @slackBroadcast order myself { st with relatedIns := related } bounded

end calls

section runs
variable {myself : NodeId} {calls : List CacheCall} {st : SlotState}

theorem zeroedBounded : Bounded .zeroed := le_refl 0

theorem callsBounded (run : Reach (Takes (cacheCall myself)) .zeroed calls st) : Bounded st :=
  reachInvariant zeroedBounded (fun bounded taken => callBounded taken bounded) run

theorem callsAhead (run : Reach (Takes (cacheCall myself)) .zeroed calls st) : 0 ≤ slack st := by
  have bounded := callsBounded run
  simp only [Bounded] at bounded
  simp only [slack]
  omega

/-- Nothing brings the counter back, so the runs that count right are those without a repeated key. -/
theorem countedRun (run : Reach (Takes (cacheCall myself)) .zeroed calls st) :
    Counted st ↔ Reach (Guarded Fresh (Takes (cacheCall myself))) .zeroed calls st := by
  rw [countedIff]
  induction run with
  | start => exact ⟨fun _ => .start,fun _ => rfl⟩
  | @next past before call after run taken ih =>
    have step := callSlack taken (callsBounded run)
    have ahead := callsAhead run
    constructor
    · intro even
      have isFresh : fresh before call = true := by
        by_contra repeated
        rw [if_neg repeated] at step
        omega
      rw [if_pos isFresh] at step
      exact (ih.mp (step.symm.trans even)).next ⟨isFresh,taken⟩
    · intro guarded
      cases guarded with
      | next earlier last =>
        have isFresh : fresh _ _ = true := last.1
        obtain rfl := reachUnique (reachMono (fun h => h.2) earlier) run
        rw [if_pos isFresh] at step
        exact step.trans (ih.mpr earlier)

end runs

structure SameCache (a b : SlotState) : Prop where
  cachedOp : b.cachedOp = a.cachedOp
  size : b.cacheOpSize = a.cacheOpSize

theorem countedSame {a b : SlotState} (same : SameCache a b) : Counted a ↔ Counted b := by
  rw [countedIff,countedIff,slack,slack,same.cachedOp,same.size]

/-- What the node reports when it makes the call. -/
def Reports (slot : Slot) : CacheCall → Effect → Prop
  | .addCmdToCache now argv,effect => ∃ op, cacheOps now argv = some op ∧ effect = .cached slot op
  | .broadcastCommandInHotGroup _ related,effect => ∃ f, effect = .flushed slot f ∧ f.members = related.entries

/-- The calls of one event, latest first like the events of a run. -/
theorem traceCalls {myself : NodeId} {group : Roster} {slot : Slot} {own : CacheOps → Prop} {a b st : SlotState}
    {effects : List Effect} {calls : List CacheCall} (built : ∀ op, own op → ∃ now argv, cacheOps now argv = some op)
    (trace : Trace myself group slot own a effects b) (run : Reach (Takes (cacheCall myself)) .zeroed calls st)
    (same : SameCache st a) :
    ∃ more last, Reach (Takes (cacheCall myself)) .zeroed (more ++ calls) last ∧ SameCache last b ∧
      List.Forall₂ (Reports slot) more effects.reverse := by
  induction trace generalizing st calls with
  | done => exact ⟨[],st,run,same,.nil⟩
  | frame cached size _ ih => exact ih run ⟨cached.trans same.cachedOp,size.trans same.size⟩
  | @add a op effects c mine _ ih =>
    obtain ⟨now,argv,shape⟩ := built op mine
    have taken : Takes (cacheCall myself) st (.addCmdToCache now argv) (added op st) := by
      simp [Takes,cacheCall,addCmdToCache,shape,added]
    obtain ⟨more,last,done,ends,reports⟩ := ih (run.next taken)
      ⟨by simp [added,same.cachedOp],by simp [added,same.size]⟩
    refine ⟨more ++ [.addCmdToCache now argv],last,by simpa using done,ends,?_⟩
    rw [List.reverse_cons]
    exact List.rel_append reports (.cons ⟨op,shape,rfl⟩ .nil)
  | @flush a effects c order _ _ ih =>
    have bounded := callsBounded run
    have sent : SameCache (broadcastCommandInHotGroup order myself { st with relatedIns := a.relatedIns }).1
        (broadcastCommandInHotGroup order myself a).1 := by
      have there : Bounded a := by
        simp only [Bounded] at bounded ⊢
        rw [same.cachedOp,same.size]
        exact bounded
      rw [broadcastAll order myself a there,broadcastAll order myself { st with relatedIns := a.relatedIns } bounded]
      exact ⟨rfl,by simp [same.cachedOp,same.size]⟩
    have taken : Takes (cacheCall myself) st (.broadcastCommandInHotGroup order a.relatedIns)
        (broadcastCommandInHotGroup order myself { st with relatedIns := a.relatedIns }).1 := rfl
    obtain ⟨more,last,done,ends,reports⟩ := ih (run.next taken) sent
    refine ⟨more ++ [.broadcastCommandInHotGroup order a.relatedIns],last,by simpa using done,ends,?_⟩
    rw [List.reverse_cons]
    exact List.rel_append reports (.cons ⟨_,rfl,rfl⟩ .nil)

/-- A run of the node that keeps what every event reported. -/
def Steps (nodes : List NodeId) (cl : ClusterState) (label : MemberEvent × List Effect) (next : ClusterState) : Prop :=
  ∃ r, memberStep nodes cl label.1 = .ok r ∧ r.effects = label.2 ∧ r.cluster = next

def reported (slot : Slot) (label : MemberEvent × List Effect) : List Effect :=
  (label.2.filter (fun e => e.slot = slot)).reverse

theorem addsBuilt (event : MemberEvent) (op : CacheOps) (mine : event.Adds op) :
    ∃ now argv, cacheOps now argv = some op := by
  cases event with
  | command env client argv => exact ⟨env.ustime,argv,mine⟩
  | _ => exact mine.elim

/-- Every reachable state of the node has the cache that the calls reported for the slot leave. -/
theorem nodeCalls {nodes : List NodeId} {start cl : ClusterState} {past : List (MemberEvent × List Effect)}
    (zeroed : ∀ s, start.slotStatus s = .zeroed) (run : Reach (Steps nodes) start past cl) (slot : Slot) :
    cl.myself = start.myself ∧ ∃ calls st, Reach (Takes (cacheCall start.myself)) .zeroed calls st ∧
      SameCache st (cl.slotStatus slot) ∧ List.Forall₂ (Reports slot) calls (past.flatMap (reported slot)) := by
  induction run with
  | start => exact ⟨rfl,[],.zeroed,.start,by rw [zeroed slot]; exact ⟨rfl,rfl⟩,.nil⟩
  | @next past before label after _ taken ih =>
    obtain ⟨own,calls,st,done,same,reports⟩ := ih
    obtain ⟨r,ok,effects,rfl⟩ := taken
    have spec := memberStepSpec ok
    have trace := spec.trace slot
    rw [own,effects] at trace
    obtain ⟨more,last,longer,ends,made⟩ := traceCalls (addsBuilt label.1) trace done same
    exact ⟨spec.tables.myself.trans own,more ++ calls,last,longer,ends,List.rel_append made reports⟩

/-- In every reachable state the counter is right exactly when no call of the run has cached a
command under a key with an entry still waiting. -/
theorem cacheCounter {nodes : List NodeId} {start cl : ClusterState} {past : List (MemberEvent × List Effect)}
    (zeroed : ∀ s, start.slotStatus s = .zeroed) (run : Reach (Steps nodes) start past cl) (slot : Slot) :
    (∃ calls st, Reach (Takes (cacheCall start.myself)) .zeroed calls st ∧ SameCache st (cl.slotStatus slot) ∧
      List.Forall₂ (Reports slot) calls (past.flatMap (reported slot)) ∧
      (Counted (cl.slotStatus slot) ↔ Reach (Guarded Fresh (Takes (cacheCall start.myself))) .zeroed calls st)) ∧
    ∀ calls st, Reach (Takes (cacheCall start.myself)) .zeroed calls st →
      (Counted st ↔ Reach (Guarded Fresh (Takes (cacheCall start.myself))) .zeroed calls st) := by
  obtain ⟨_,calls,st,done,same,reports⟩ := nodeCalls zeroed run slot
  exact ⟨⟨calls,st,done,same,reports,(countedSame same).symm.trans (countedRun done)⟩,fun _ _ => countedRun⟩

theorem stepsOf {nodes : List NodeId} {start cl : ClusterState} {past : List MemberEvent}
    (run : Reach (Takes (memberNext nodes)) start past cl) : ∃ labels, Reach (Steps nodes) start labels cl := by
  induction run with
  | start => exact ⟨[],.start⟩
  | @next past before event after _ taken ih =>
    obtain ⟨labels,done⟩ := ih
    simp only [Takes,memberNext] at taken
    split at taken <;> try contradiction
    rename_i r ok
    exact ⟨(event,r.effects) :: labels,done.next ⟨r,ok,rfl,Option.some.inj taken⟩⟩

theorem stepsSeen {nodes : List NodeId} {start : ClusterState} {events : List MemberEvent} {seen : ClusterState → Bool}
    (played : (replay (memberNext nodes) start events).any seen = true) :
    ∃ labels cl, Reach (Steps nodes) start labels cl ∧ seen cl = true := by
  obtain ⟨cl,done,shown⟩ := replaySeen played
  obtain ⟨labels,run⟩ := stepsOf (replayReach done)
  exact ⟨labels,cl,run,shown⟩

def peerNode : ClusterState := .initial 1 2

/-- The first four events of `writesThenLeave` cache one write; the fifth caches a second one. -/
def firstWrite : List MemberEvent := (writesThenLeave [textSet,letterK,letterA] [textSet,letterK,letterB]).take 4

theorem cacheCounterShown : ∃ cl : ClusterState, (cl.slotStatus (keyHashSlot letterK)).cacheOpSize = 1 ∧
    Counted (cl.slotStatus (keyHashSlot letterK)) ∧ ∃ calls st,
      Reach (Guarded Fresh (Takes (cacheCall peerNode.myself))) .zeroed calls st := by
  have played : (replay (memberNext knownNodes) peerNode firstWrite).any (fun cl =>
      decide ((cl.slotStatus (keyHashSlot letterK)).cacheOpSize = 1) &&
      decide (Counted (cl.slotStatus (keyHashSlot letterK)))) = true := by decide +kernel
  obtain ⟨labels,cl,run,shown⟩ := stepsSeen played
  simp only [Bool.and_eq_true,decide_eq_true_eq] at shown
  obtain ⟨calls,st,_,_,_,iff⟩ := (cacheCounter (fun _ => rfl) run (keyHashSlot letterK)).1
  exact ⟨cl,shown.1,shown.2,calls,st,iff.mp shown.2⟩

/-- Two writes of one key wait as one entry counted twice, and after the flush the counter still
says that there is something to send. -/
theorem repeatedKeyCounted : (∃ labels cl, Reach (Steps knownNodes) peerNode labels cl ∧
      (cl.slotStatus (keyHashSlot letterK)).cacheOpSize = 2 ∧ (cl.slotStatus (keyHashSlot letterK)).cachedOp.size = 1 ∧
      ¬ Counted (cl.slotStatus (keyHashSlot letterK))) ∧
    ∃ labels cl, Reach (Steps knownNodes) peerNode labels cl ∧ (cl.slotStatus (keyHashSlot letterK)).cacheOpSize > 0 ∧
      (cl.slotStatus (keyHashSlot letterK)).cachedOp.entries = [] := by
  constructor
  · have played : (replay (memberNext knownNodes) peerNode
        ((writesThenLeave [textSet,letterK,letterA] [textSet,letterK,letterB]).take 5)).any (fun cl =>
        decide ((cl.slotStatus (keyHashSlot letterK)).cacheOpSize = 2) &&
        decide ((cl.slotStatus (keyHashSlot letterK)).cachedOp.size = 1)) = true := by decide +kernel
    obtain ⟨labels,cl,run,shown⟩ := stepsSeen played
    simp only [Bool.and_eq_true,decide_eq_true_eq] at shown
    refine ⟨labels,cl,run,shown.1,shown.2,fun counted => ?_⟩
    have same := counted.size
    rw [shown.1,shown.2] at same
    exact absurd same (by decide)
  · have played : (replay (memberNext knownNodes) peerNode
        (writesThenLeave [textSet,letterK,letterA] [textSet,letterK,letterB])).any (fun cl =>
        decide ((cl.slotStatus (keyHashSlot letterK)).cacheOpSize > 0) &&
        decide ((cl.slotStatus (keyHashSlot letterK)).cachedOp.entries = [])) = true := by decide +kernel
    obtain ⟨labels,cl,run,shown⟩ := stepsSeen played
    simp only [Bool.and_eq_true,decide_eq_true_eq] at shown
    exact ⟨labels,cl,run,shown⟩

end HpuCache.CacheCounter
