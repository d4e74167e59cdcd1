import HpuCache.CommandTable
import HpuCache.ConsistServer
import Mathlib.Logic.Function.Basic

/-! When the cached writes of a copied slot leave the node: the run modes choose one
cadence, and what is sent afterwards should follow that cadence only. -/
namespace HpuCache.Cadence
open ByteText KeySlot KeyedDict ServerState NodeQuery CommandTable ConsistServer
open CommandCache hiding magicWord cacheOps addCmdToCache
open GroupCommands hiding runmodeCommand

inductive Report where
  | command (effects : List Sited)
  | cron (iteration : Nat) (effects : List Effect)

inductive Later where
  | write (env : Env) (client : Client) (argv : List Bytes)
  | cron (orders : Nat → Slot → IterOrder CacheOps)

def laterStep (st : ConsistState) : Later → ConsistState × Report
  | .write env client argv =>
    let out := processCommand env st.cluster client argv
    ({ st with cluster := out.cluster },.command out.effects)
  | .cron orders =>
    let ticked := clusterCron orders st
    (ticked.1,.cron ticked.1.iteration ticked.2)

def reports : ConsistState → List Later → List Report
  | _, [] => []
  | st, event :: rest => (laterStep st event).2 :: reports (laterStep st event).1 rest

def Effect.flushes (slot : Slot) (effect : Effect) : Prop := ∃ flush, effect = .flushed slot flush

/-- No command sends writes, and what the cron job sends belongs to the period. -/
def Follows (period : Nat) (slot : Slot) : Report → Prop
  | .command effects => ∀ e ∈ effects, ¬ Effect.flushes slot e.effect
  | .cron iteration effects => (∃ e ∈ effects, Effect.flushes slot e) → iteration % period = 0

def periodOf : SyncWay → Option Nat
  | .second => some 10
  | .tenths t => some t
  | _ => none

def ValidMode (mode : Bytes × Bytes) : Prop :=
  (syncWay mode.1).isSome = true ∧ (strcasecmpEqual mode.2 textAvg = true ∨ strcasecmpEqual mode.2 textSkew = true)

instance : DecidablePred ValidMode := fun mode =>
  inferInstanceAs (Decidable ((syncWay mode.1).isSome = true ∧ (_ ∨ _)))

def runModes (st : ConsistState) (modes : List (Bytes × Bytes)) : ConsistState :=
  modes.foldl (fun st mode => (runmodeCommand mode.1 mode.2 st).1) st

/-- The flags as `clusterInit` leaves them; the rest of the node is arbitrary. -/
structure Initial (st : ConsistState) : Prop where
  isSync : st.cluster.isSync = true
  syncTime : st.cluster.syncTime = false
  forwardTime : st.cluster.forwardTime = false
  syncTenths : ∀ t, st.syncTenths t = false

/-- The one-time sync of a copied slot has nothing to send: it was made, or there is no copy, or no write
waits for it, with the one that its own command may add. -/
def Settled (st : SlotState) : Prop :=
  st.isSynced = true ∨ st.haveCopy = false ∨ st.cacheOpSize + (if st.isCopying then 1 else 0) ≤ 0

/-- After these modes the cached writes of the slot keep to the period. -/
def Keeps (start : ConsistState) (modes : List (Bytes × Bytes)) (period : Nat) (slot : Slot) : Prop :=
  ∀ events, ∀ report ∈ reports (runModes start modes) events, Follows period slot report

/-- So do those of every copied slot that has made its one-time sync. -/
def Exclusive (modes : List (Bytes × Bytes)) (period : Nat) : Prop :=
  ∀ start, Initial start → ∀ slot, (start.cluster.slotStatus slot).isCopied = true →
    Settled (start.cluster.slotStatus slot) → Keeps start modes period slot

structure Resting (st : SlotState) : Prop where
  copied : st.isCopied = true
  settled : Settled st

/-- Behind the one-time sync, where writes may be cached again. -/
structure Behind (st : SlotState) : Prop where
  copied : st.isCopied = true
  made : st.isSynced = true ∨ st.haveCopy = false

theorem Behind.resting {st : SlotState} (after : Behind st) : Resting st :=
  ⟨after.copied,after.made.imp_right .inl⟩

section Command

variable (env : Env) (cl : ClusterState) (c : Client) (argv : List Bytes)

/-- What a command can do to the flags and to slots at rest, and what it sends under the one-second mode. -/
structure Quiet (cl after : ClusterState) (effects : List Sited) : Prop where
  syncTime : after.syncTime = cl.syncTime
  resting : ∀ slot, Resting (cl.slotStatus slot) → Resting (after.slotStatus slot)
  silent : cl.syncTime = true → ∀ slot, Resting (cl.slotStatus slot) → ∀ e ∈ effects, ¬ Effect.flushes slot e.effect

theorem Quiet.idle (cl : ClusterState) : Quiet cl cl [] := ⟨rfl,fun _ => id,fun _ _ _ _ member => nomatch member⟩

/-- The slot of the command, on its way through the branches. -/
structure Passed (cl : ClusterState) (slot : Slot) (st : SlotState) (effects : List Sited) : Prop where
  own : ∀ e ∈ effects, e.effect.slot = slot
  resting : Resting (cl.slotStatus slot) → Behind st
  silent : cl.syncTime = true → Resting (cl.slotStatus slot) → ∀ e ∈ effects, ¬ Effect.flushes slot e.effect

theorem Passed.quiet {cl : ClusterState} {slot : Slot} {st : SlotState} {effects : List Sited}
    (passed : Passed cl slot st effects) : Quiet cl (cl.setSlot slot st) effects := by
  refine ⟨rfl,fun s before => ?_,fun second s before e member => ?_⟩
  · by_cases same : s = slot
    · subst same
      rw [setSlotSame]
      exact (passed.resting before).resting
    · rwa [setSlotOther cl st same]
  · by_cases same : s = slot
    · subst same
      exact passed.silent second before e member
    · rintro ⟨flush,sent⟩
      have here := passed.own e member
      rw [sent] at here
      exact same here

/-- What the branch of the copying status leaves of a slot. -/
structure Copying (st : SlotState) (slot : Slot) (isWrite : Bool) (r : SlotState × List Sited) : Prop where
  copied : r.1.isCopied = st.isCopied
  synced : r.1.isSynced = st.isSynced
  copy : r.1.haveCopy = st.haveCopy
  count : r.1.cacheOpSize = st.cacheOpSize + (if st.haveCopy && st.isCopying && isWrite then 1 else 0)
  caches : ∀ e ∈ r.2, ∃ op, e.effect = .cached slot op

theorem copyingSpec {slot : Slot} {isWrite : Bool} {st : SlotState} {r : SlotState × List Sited}
    (done : copyingCache env slot isWrite argv st = some r) : Copying st slot isWrite r := by
  unfold copyingCache at done
  split at done
  · rename_i caches
    obtain ⟨added,built,rfl⟩ := Option.map_eq_some_iff.mp done
    obtain ⟨op,_,last⟩ := Option.bind_eq_some_iff.mp built
    obtain rfl := Option.some.inj last
    exact ⟨rfl,rfl,rfl,by rw [if_pos caches],fun e member => ⟨op,by rw [List.mem_singleton.mp member]⟩⟩
  · rename_i idle
    obtain rfl := Option.some.inj done
    exact ⟨rfl,rfl,rfl,by rw [if_neg idle,Int.add_zero],fun e member => nomatch member⟩

/-- A slot at rest has nothing to send when its one-time sync is made. -/
theorem onceSilent {myself : NodeId} {slot : Slot} {isWrite : Bool} {st : SlotState} {r : SlotState × List Sited}
    (copying : Copying st slot isWrite r) (resting : Resting st) :
    (ProcessCommand.oneTimeSync env myself slot r.1).2 = [] ∧ Behind (ProcessCommand.oneTimeSync env myself slot r.1).1 := by
  have copied := copying.copied.trans resting.copied
  rw [ProcessCommand.oneTimeSync]
  split
  · rename_i due
    simp only [Bool.and_eq_true,Bool.not_eq_true',copying.synced,copying.copy] at due
    obtain ⟨⟨unsynced,_⟩,copy⟩ := due
    have none : ¬ r.1.cacheOpSize > 0 := by
      rcases resting.settled with made | bare | empty
      · rw [made] at unsynced
        contradiction
      · rw [copy] at bare
        contradiction
      · have once : (if st.haveCopy && st.isCopying && isWrite then (1 : Int) else 0) ≤ if st.isCopying then 1 else 0 := by
          cases st.haveCopy <;> cases st.isCopying <;> cases isWrite <;> decide
        rw [copying.count]
        exact not_lt.mpr ((Int.add_le_add_left once _).trans empty)
    simp only [flushIfCounted,if_neg none]
    exact ⟨trivial,copied,.inl rfl⟩
  · rename_i idle
    refine ⟨rfl,copied,?_⟩
    cases synced : r.1.isSynced
    · cases copy : r.1.haveCopy
      · exact .inr rfl
      · exact absurd (by simp [synced,copied,copy]) idle
    · exact .inl rfl

theorem onceOwn {myself : NodeId} {slot : Slot} {st : SlotState} :
    ∀ e ∈ sited .oneTimeSync (ProcessCommand.oneTimeSync env myself slot st).2, e.effect.slot = slot := by
  intro e member
  obtain ⟨effect,sent,rfl⟩ := List.mem_map.mp member
  rw [ProcessCommand.oneTimeSync] at sent
  split at sent
  · simp only [flushIfCounted] at sent
    split at sent
    · rw [List.mem_singleton.mp sent]
      rfl
    · nomatch sent
  · nomatch sent

theorem copiedSilent {slot : Slot} {isWrite : Bool} {st : SlotState} {r : SlotState × List Sited}
    (done : copiedWrite env cl slot isWrite argv st = some r) (second : cl.syncTime = true) :
    ∀ e ∈ r.2, ∀ s, ¬ Effect.flushes s e.effect := by
  simp only [copiedWrite,second,if_true] at done
  split at done
  · obtain ⟨added,_,last⟩ := Option.bind_eq_some_iff.mp done
    obtain rfl := Option.some.inj last
    simp [sited,Effect.flushes]
  · obtain rfl := Option.some.inj done
    simp

theorem copiedBehind {slot : Slot} {isWrite : Bool} {st : SlotState} {r : SlotState × List Sited}
    (done : copiedWrite env cl slot isWrite argv st = some r) :
    (∀ e ∈ r.2, e.effect.slot = slot) ∧ (Behind st → Behind r.1) := by
  unfold copiedWrite at done
  split at done
  · obtain ⟨added,built,last⟩ := Option.bind_eq_some_iff.mp done
    obtain ⟨op,_,same⟩ := Option.bind_eq_some_iff.mp built
    obtain rfl := Option.some.inj same
    split at last
    · obtain rfl := Option.some.inj last
      exact ⟨by simp [sited,Effect.slot],fun after => ⟨after.copied,after.made⟩⟩
    · obtain rfl := Option.some.inj last
      refine ⟨by simp [sited,flushSlot,Effect.slot],fun after => ?_⟩
      obtain ⟨cachedOp,cacheOpSize,shape,_⟩ := CommandCache.broadcastFrame env.writeOrder cl.myself
        { st with cachedOp := st.cachedOp.replace op, cacheOpSize := st.cacheOpSize + 1 }
      simp only [flushSlot,shape]
      exact ⟨after.copied,after.made⟩
  · obtain rfl := Option.some.inj done
    exact ⟨by simp,id⟩

theorem serveQuiet (cmd : RedisCommand) (q : Query) {slot : Slot} {st : SlotState} {effects : List Sited}
    (passed : Passed cl slot st effects) :
    Quiet cl (serveOrRedirect env cl c cmd argv q slot st effects).cluster
      (serveOrRedirect env cl c cmd argv q slot st effects).effects := by
  unfold serveOrRedirect
  split
  · cases done : copiedWrite env cl slot (isWriteCommand c cmd) argv st with
    | none => exact passed.quiet
    | some r =>
      obtain ⟨own,behind⟩ := copiedBehind env cl argv done
      refine Passed.quiet ⟨fun e member => ?_,fun resting => ?_,fun second resting e member => ?_⟩
      · exact (List.mem_append.mp member).elim (passed.own e) (own e)
      · have after := behind (passed.resting resting)
        exact ⟨after.copied,after.made⟩
      · rcases List.mem_append.mp member with old | new
        · exact passed.silent second resting e old
        · exact copiedSilent env cl argv done second e new slot
  · split
    · exact passed.quiet
    · exact Passed.quiet ⟨passed.own,fun resting => ⟨(passed.resting resting).copied,(passed.resting resting).made⟩,
        passed.silent⟩

theorem branchesQuiet (cmd : RedisCommand) (q : Query) (slot : Slot) :
    Quiet cl (hotSlotBranches env cl c cmd argv q slot).cluster
      (hotSlotBranches env cl c cmd argv q slot).effects := by
  unfold hotSlotBranches
  cases done : copyingCache env slot (isWriteCommand c cmd) argv (cl.slotStatus slot) with
  | none => exact .idle cl
  | some r =>
    have copying := copyingSpec env argv done
    have passed : Passed cl slot (ProcessCommand.oneTimeSync env cl.myself slot r.1).1
        (r.2 ++ sited .oneTimeSync (ProcessCommand.oneTimeSync env cl.myself slot r.1).2) := by
      refine ⟨fun e member => ?_,fun resting => (onceSilent env copying resting).2,fun _ resting e member => ?_⟩
      · rcases List.mem_append.mp member with cached | sent
        · obtain ⟨op,same⟩ := copying.caches e cached
          rw [same]
          rfl
        · exact onceOwn env e sent
      · rw [(onceSilent env copying resting).1,sited,List.map_nil,List.append_nil] at member
        obtain ⟨op,same⟩ := copying.caches e member
        rintro ⟨flush,sent⟩
        rw [same] at sent
        contradiction
    dsimp only
    split
    · exact passed.quiet
    · exact passed.quiet
    · exact serveQuiet env cl _ argv cmd q passed
    · exact serveQuiet env cl c argv cmd q passed

theorem callQuiet {after : ClusterState} {effects : List Sited} (quiet : Quiet cl after effects) (client : Client)
    (cmd : RedisCommand) (touched : Option HashSlot) :
    Quiet cl (callOrRefuse env after client cmd argv effects touched).cluster
      (callOrRefuse env after client cmd argv effects touched).effects := by
  unfold callOrRefuse
  split <;> exact quiet

theorem dispatchQuiet : Quiet cl (dispatch env cl c argv).cluster (dispatch env cl c argv).effects := by
  unfold dispatch
  cases env.commands (argv.headD []) with
  | none => exact .idle cl
  | some cmd =>
    dsimp only
    split
    · exact .idle cl
    split
    · exact .idle cl
    split
    · exact .idle cl
    split
    · unfold clusterBlock
      cases getNodeByQuery env cl c cmd argv with
      | none => exact .idle cl
      | some q =>
        dsimp only
        split
        · exact .idle cl
        · rename_i slot _
          have quiet := branchesQuiet env cl c argv cmd q slot
          unfold afterBlock
          split
          · exact quiet
          · exact callQuiet env cl argv quiet _ cmd _
    · exact callQuiet env cl argv (.idle cl) c cmd none

theorem commandQuiet :
    Quiet cl (processCommand env cl c argv).cluster (processCommand env cl c argv).effects := by
  unfold processCommand
  split
  · exact .idle cl
  split
  · exact dispatchQuiet env cl c argv
  · exact .idle cl
  · exact @followWay (fun out => Quiet cl out.cluster out.effects) env cl c _ (.idle cl) (.idle cl)
  · exact @followWay (fun out => Quiet cl out.cluster out.effects) env cl c _ (dispatchQuiet env cl _ _) (.idle cl)

end Command

section Cron

variable {iteration : Nat} {orders : Nat → Slot → IterOrder CacheOps} {slot : Slot}

theorem loopFlags (loop : Bool × Nat) (order : Slot → IterOrder CacheOps) (cl : ClusterState) :
    (cronLoop iteration order loop cl).1.syncTime = cl.syncTime := by
  unfold cronLoop
  split <;> rfl

theorem loopsFlags (loops : List (Bool × Nat)) (cl : ClusterState) :
    (runLoops iteration orders loops cl).1.syncTime = cl.syncTime := by
  induction loops generalizing cl with
  | nil => rfl
  | cons loop rest ih => exact (ih _).trans (loopFlags loop _ cl)

theorem cronResting (order : IterOrder CacheOps) (myself : NodeId) (slot : Slot) {st : SlotState} (resting : Resting st) :
    Resting (cronFlushSlot order myself slot st).1 := by
  unfold cronFlushSlot flushIfCounted
  split
  · split
    · rename_i counted
      obtain ⟨cachedOp,cacheOpSize,shape,_⟩ := CommandCache.broadcastFrame order myself st
      simp only [flushSlot,shape]
      refine ⟨resting.copied,?_⟩
      rcases resting.settled with made | bare | empty
      · exact .inl made
      · exact .inr (.inl bare)
      · split at empty <;> omega
    · exact resting
  · exact resting

theorem loopResting (loop : Bool × Nat) (order : Slot → IterOrder CacheOps) {cl : ClusterState}
    (resting : Resting (cl.slotStatus slot)) : Resting ((cronLoop iteration order loop cl).1.slotStatus slot) := by
  unfold cronLoop
  split
  · exact cronResting (order slot) cl.myself slot resting
  · exact resting

theorem loopsResting (loops : List (Bool × Nat)) {cl : ClusterState} (resting : Resting (cl.slotStatus slot)) :
    Resting ((runLoops iteration orders loops cl).1.slotStatus slot) := by
  induction loops generalizing cl with
  | nil => exact resting
  | cons loop rest ih => exact ih (loopResting loop _ resting)

theorem loopsActive {loops : List (Bool × Nat)} {cl : ClusterState} {e : Effect}
    (member : e ∈ (runLoops iteration orders loops cl).2) :
    ∃ loop ∈ loops, loop.1 = true ∧ iteration % loop.2 = 0 := by
  induction loops generalizing cl with
  | nil => nomatch member
  | cons loop rest ih =>
    rcases List.mem_append.mp member with member | member
    · refine ⟨loop,List.mem_cons_self,?_⟩
      by_cases active : (loop.1 && decide (iteration % loop.2 = 0)) = true
      · simpa using active
      · rw [cronLoop,if_neg active] at member
        nomatch member
    · obtain ⟨found,inside,active⟩ := ih member
      exact ⟨found,List.mem_cons_of_mem _ inside,active⟩

/-- A copied slot with a related node and something counted. -/
structure Due (st : SlotState) : Prop where
  copied : st.isCopied = true
  related : st.relatedIns.size > 0
  counted : st.cacheOpSize > 0

theorem slotFlushed {st : SlotState} (due : Due st) (order : IterOrder CacheOps) (myself : NodeId) (slot : Slot) :
    ∃ e ∈ (cronFlushSlot order myself slot st).2, Effect.flushes slot e := by
  have ready : (st.isCopied && decide (st.relatedIns.size > 0)) = true := by simp [due.copied,due.related]
  rw [cronFlushSlot,if_pos ready,flushIfCounted,if_pos due.counted]
  exact ⟨_,List.mem_singleton_self _,_,rfl⟩

theorem loopFlushed {loop : Bool × Nat} {cl : ClusterState} (due : Due (cl.slotStatus slot))
    (active : loop.1 = true ∧ iteration % loop.2 = 0) (order : Slot → IterOrder CacheOps) :
    ∃ e ∈ (cronLoop iteration order loop cl).2, Effect.flushes slot e := by
  obtain ⟨e,member,flushes⟩ := slotFlushed due (order slot) cl.myself slot
  refine ⟨e,?_,flushes⟩
  rw [cronLoop,if_pos (by simp [active])]
  dsimp only
  rw [List.mem_flatMap]
  exact ⟨slot,List.mem_finRange slot,member⟩

theorem loopsFlushed {loops : List (Bool × Nat)} {cl : ClusterState} (due : Due (cl.slotStatus slot))
    (active : ∃ loop ∈ loops, loop.1 = true ∧ iteration % loop.2 = 0) :
    ∃ e ∈ (runLoops iteration orders loops cl).2, Effect.flushes slot e := by
  induction loops with
  | nil =>
    obtain ⟨_,member,_⟩ := active
    nomatch member
  | cons loop rest ih =>
    by_cases here : loop.1 = true ∧ iteration % loop.2 = 0
    · obtain ⟨e,member,flushes⟩ := loopFlushed due here (orders loop.2)
      exact ⟨e,List.mem_append_left _ member,flushes⟩
    · obtain ⟨found,inside,there⟩ := active
      have inRest : found ∈ rest := by
        rcases List.mem_cons.mp inside with rfl | inside
        · exact absurd there here
        · exact inside
      have same : cronLoop iteration (orders loop.2) loop cl = (cl,[]) := by
        rw [cronLoop,if_neg (by simpa using here)]
      obtain ⟨e,member,flushes⟩ := ih ⟨found,inRest,there⟩
      refine ⟨e,List.mem_append_right _ ?_,flushes⟩
      rw [same]
      exact member

theorem cronFlushed {cl : ClusterState} {tenths : Nat → Bool} {before t : Nat} (due : Due (cl.slotStatus slot))
    (low : 1 ≤ t) (high : t ≤ 9) (selected : tenths t = true) (tick : (before + 1) % 2 ^ 64 = t) :
    (clusterCron orders ⟨cl,tenths,before⟩).1.iteration = t ∧
      ∃ e ∈ (clusterCron orders ⟨cl,tenths,before⟩).2, Effect.flushes slot e := by
  have listed : t ∈ [9,8,7,6,5,4,3,2,1] := by
    simp only [List.mem_cons,List.not_mem_nil,or_false]
    omega
  have loop : (tenths t,t) ∈ cronLoops ⟨cl,tenths,before⟩ :=
    List.mem_cons_of_mem _ (List.mem_map.mpr ⟨t,listed,rfl⟩)
  refine ⟨tick,?_⟩
  simp only [clusterCron,tick]
  exact loopsFlushed due ⟨_,loop,selected,Nat.mod_self t⟩

end Cron

section Modes

theorem forwardKept (word : Bytes) (cl : ClusterState) :
    (setForwardWay word cl).1.isSync = cl.isSync ∧ (setForwardWay word cl).1.syncTime = cl.syncTime ∧
      ∃ forwardTime, (setForwardWay word cl).1 = { cl with forwardTime := forwardTime } := by
  unfold setForwardWay
  split
  · exact ⟨rfl,rfl,false,rfl⟩
  split
  · exact ⟨rfl,rfl,true,rfl⟩
  · exact ⟨rfl,rfl,cl.forwardTime,rfl⟩

theorem runmodeValid {mode : Bytes × Bytes} {way : SyncWay} (chosen : syncWay mode.1 = some way) (st : ConsistState) :
    ∃ forwardTime, (runmodeCommand mode.1 mode.2 st).1 =
      { selectSync way st with cluster := { (selectSync way st).cluster with forwardTime := forwardTime } } := by
  obtain ⟨_,_,forwardTime,same⟩ := forwardKept mode.2 (selectSync way st).cluster
  refine ⟨forwardTime,?_⟩
  simp only [runmodeCommand,chosen,same]

theorem tenthBound {word : Bytes} {t : Nat} (chosen : syncWay word = some (.tenths t)) : 1 ≤ t ∧ t ≤ 9 := by
  unfold syncWay at chosen
  split at chosen
  · nomatch chosen
  split at chosen
  · nomatch chosen
  split at chosen
  · nomatch chosen
  obtain ⟨pair,found,same⟩ := Option.map_eq_some_iff.mp chosen
  have member := List.mem_of_find?_eq_some found
  obtain rfl : pair.2 = t := by simpa using same
  have all : ∀ w ∈ tenthWords, 1 ≤ w.2 ∧ w.2 ≤ 9 := by decide
  exact all pair member

theorem selectTenths (way : SyncWay) (st : ConsistState) (t : Nat) :
    (selectSync way st).syncTenths t = true ↔ st.syncTenths t = true ∨ way = .tenths t := by
  cases way with
  | tenths u =>
    by_cases same : t = u
    · simp [selectSync,same]
    · simp [selectSync,same,Ne.symm same]
  | _ => simp [selectSync]

/-- What the run modes leave of a node: its state before them with other flags. A tenth
stays selected whatever modes follow. -/
theorem modesShape {modes : List (Bytes × Bytes)} (valid : ∀ mode ∈ modes, ValidMode mode) (st : ConsistState) :
    ∃ isSync syncTime forwardTime syncTenths, runModes st modes =
      ⟨{ st.cluster with isSync := isSync, syncTime := syncTime, forwardTime := forwardTime },syncTenths,
        st.iteration⟩ ∧
      ∀ t, syncTenths t = true ↔ st.syncTenths t = true ∨ ∃ mode ∈ modes, syncWay mode.1 = some (.tenths t) := by
  induction modes generalizing st with
  | nil => exact ⟨_,_,_,_,rfl,by simp⟩
  | cons mode rest ih =>
    obtain ⟨way,chosen⟩ := Option.isSome_iff_exists.mp (valid mode List.mem_cons_self).1
    obtain ⟨forwardTime,first⟩ := runmodeValid chosen st
    obtain ⟨isSync,syncTime,forwardLater,syncTenths,later,selected⟩ :=
      ih (fun m member => valid m (List.mem_cons_of_mem _ member)) (runmodeCommand mode.1 mode.2 st).1
    refine ⟨isSync,syncTime,forwardLater,syncTenths,?_,fun t => (selected t).trans ?_⟩
    · refine later.trans ?_
      rw [first]
      cases way <;> rfl
    · rw [first]
      simp only [List.mem_cons,exists_eq_or_imp,chosen,Option.some_inj,← or_assoc,selectTenths]

end Modes

/-- The one-second mode, with no tenth ever selected. -/
structure SecondOnly (st : ConsistState) : Prop where
  second : st.cluster.syncTime = true
  tenths : ∀ t, st.syncTenths t = false

theorem secondKept {st : ConsistState} (only : SecondOnly st) {slot : Slot}
    (resting : Resting (st.cluster.slotStatus slot)) (event : Later) :
    SecondOnly (laterStep st event).1 ∧ Resting ((laterStep st event).1.cluster.slotStatus slot) := by
  cases event with
  | write env client argv =>
    have quiet := commandQuiet env st.cluster client argv
    exact ⟨⟨quiet.syncTime.trans only.second,only.tenths⟩,quiet.resting slot resting⟩
  | cron orders => exact ⟨⟨(loopsFlags _ _).trans only.second,only.tenths⟩,loopsResting _ resting⟩

theorem secondFollows {st : ConsistState} (only : SecondOnly st) {slot : Slot}
    (resting : Resting (st.cluster.slotStatus slot)) (event : Later) : Follows 10 slot (laterStep st event).2 := by
  cases event with
  | write env client argv => exact (commandQuiet env st.cluster client argv).silent only.second slot resting
  | cron orders =>
    rintro ⟨e,member,_⟩
    obtain ⟨loop,inside,active,divides⟩ := loopsActive member
    rcases List.mem_cons.mp inside with rfl | inside
    · exact divides
    · obtain ⟨t,_,rfl⟩ := List.mem_map.mp inside
      simp [only.tenths t] at active

theorem secondRun {st : ConsistState} (only : SecondOnly st) {slot : Slot}
    (resting : Resting (st.cluster.slotStatus slot)) (events : List Later) :
    ∀ report ∈ reports st events, Follows 10 slot report := by
  induction events generalizing st with
  | nil => exact nofun
  | cons event rest ih =>
    intro report member
    obtain ⟨onlyNext,restingNext⟩ := secondKept only resting event
    rcases List.mem_cons.mp member with rfl | member
    · exact secondFollows only resting event
    · exact ih onlyNext restingNext report member

section Failing

def hotSlot : Slot := keyHashSlot letterK

def copiedCluster : ClusterState :=
  { ClusterState.initial 1 2 with
    slotStatus := fun slot => if slot = hotSlot then
      { SlotState.zeroed with isCopied := true, relatedIns := (Dict.empty.replace 1).replace 2 } else .zeroed }

def copiedNode (iteration : Nat) : ConsistState := ⟨copiedCluster,fun _ => false,iteration⟩

def setK : List Bytes := [textSet,letterK,letterA]

theorem copiedSettled {iteration : Nat} : Settled ((copiedNode iteration).cluster.slotStatus hotSlot) := .inr (.inl rfl)

theorem copiedInitial (iteration : Nat) : Initial (copiedNode iteration) := ⟨rfl,rfl,rfl,fun _ => rfl⟩

def sendsAtOnce (effects : List Sited) : Bool :=
  effects.any fun e => match e.effect with
    | .flushed slot _ => decide (slot = hotSlot)
    | .cached _ _ => false

theorem sendsSound {effects : List Sited} (sends : sendsAtOnce effects = true) :
    ∃ e ∈ effects, Effect.flushes hotSlot e.effect := by
  obtain ⟨⟨site,effect⟩,member,here⟩ := List.any_eq_true.mp sends
  cases effect with
  | cached slot op => nomatch here
  | flushed slot flush => exact ⟨_,member,flush,by rw [decide_eq_true_eq.mp here]⟩

theorem immediateSends (forwardTime : Bool) : sendsAtOnce (processCommand (calm (clock 0))
    { copiedCluster with isSync := true, syncTime := false, forwardTime := forwardTime } .fresh setK).effects =
      true := by
  cases forwardTime <;> decide

theorem cachedDue (forwardTime : Bool) : Due ((processCommand (calm (clock 0))
    { copiedCluster with isSync := true, syncTime := true, forwardTime := forwardTime } .fresh
      setK).cluster.slotStatus hotSlot) := by
  cases forwardTime <;> exact ⟨by decide,by decide,by decide⟩

/-- An environment whose stack holds the slot, so that a query without an answer names it too. -/
def pointed (slot : Slot) : Env := { calm (clock 0) with stack := slot.val }

def setOf (key : Bytes) : List Bytes := [textSet,key,letterA]

theorem pointedSlot (slot : Slot) : (HashSlot.unset (pointed slot).stack).slot? = some slot := storedSlot? slot

theorem setRead (key : Bytes) : getKeysFromCommand setEntry (setOf key) = some [key] := rfl

theorem setScans (env : Env) (cl : ClusterState) (key : Bytes) :
    scanCommands env cl (queryCommands .fresh setEntry (setOf key)) none ≠ .panic := by
  have plain : queryCommands .fresh setEntry (setOf key) = [⟨setEntry,setOf key⟩] := rfl
  rw [plain,scanCommands,setRead]
  dsimp only
  split <;> simp [scanCommands]

theorem setNamesSlot (cl : ClusterState) (key : Bytes) :
    ∃ q, getNodeByQuery (pointed (keyHashSlot key)) cl .fresh setEntry (setOf key) = some q ∧
      (ProcessCommand.Query.variable (pointed (keyHashSlot key)) q).slot? = some (keyHashSlot key) := by
  cases asked : getNodeByQuery (pointed (keyHashSlot key)) cl .fresh setEntry (setOf key) with
  | none =>
    unfold getNodeByQuery at asked
    repeat' split at asked
    all_goals first | contradiction | exact absurd (by assumption) (setScans (pointed (keyHashSlot key)) cl key)
  | some q =>
    refine ⟨q,rfl,?_⟩
    rw [ProcessCommand.Query.variable]
    cases stored : q.hashslot with
    | none => exact pointedSlot (keyHashSlot key)
    | some s =>
      obtain ⟨_,_,_,_,_,keys,got,slots⟩ := storedSlot asked stored
      have plain : queryCommands .fresh setEntry (setOf key) = [⟨setEntry,setOf key⟩] := rfl
      have read : allKeys (queryCommands .fresh setEntry (setOf key)) = some [key] := by
        simp [plain,allKeys,setRead]
      obtain rfl := Option.some.inj (read.symm.trans got)
      rw [slots key (List.mem_singleton_self key)]
      exact storedSlot? s

theorem serveSends {env : Env} {cl : ClusterState} {c : Client} {cmd : RedisCommand} {argv : List Bytes} {q : Query}
    {slot : Slot} {st : SlotState} {effects : List Sited} {e : Sited} (member : e ∈ effects) :
    e ∈ (serveOrRedirect env cl c cmd argv q slot st effects).effects := by
  unfold serveOrRedirect
  split
  · split
    · exact member
    · exact List.mem_append_left _ member
  · split <;> exact member

/-- A slot that still has to make its one-time sync, and has something to send with it. -/
theorem branchSends (env : Env) (cl : ClusterState) (c : Client) {cmd : RedisCommand} {argv : List Bytes} (q : Query)
    {slot : Slot} (copied : (cl.slotStatus slot).isCopied = true) (unsettled : ¬ Settled (cl.slotStatus slot))
    (isWrite : isWriteCommand c cmd = true) (long : 2 ≤ argv.length) :
    ∃ e ∈ (hotSlotBranches env cl c cmd argv q slot).effects, Effect.flushes slot e.effect := by
  rw [Settled,not_or,not_or,Bool.not_eq_true,Bool.not_eq_false,Int.not_le] at unsettled
  obtain ⟨unsynced,copy,waiting⟩ := unsettled
  unfold hotSlotBranches
  cases done : copyingCache env slot (isWriteCommand c cmd) argv (cl.slotStatus slot) with
  | none =>
    simp only [copyingCache,addCmdToCache,cacheOps,dif_pos long] at done
    split at done <;> contradiction
  | some r =>
    have copying := copyingSpec env argv done
    have counted : r.1.cacheOpSize > 0 := by
      rw [copying.count,copy,isWrite,Bool.true_and,Bool.and_true]
      exact waiting
    have due : (!r.1.isSynced && r.1.isCopied && r.1.haveCopy) = true := by
      rw [copying.synced,copying.copied,copying.copy,unsynced,copied,copy]
      rfl
    have sends : ∃ e ∈ r.2 ++ sited .oneTimeSync (ProcessCommand.oneTimeSync env cl.myself slot r.1).2,
        Effect.flushes slot e.effect := by
      rw [ProcessCommand.oneTimeSync,if_pos due,flushIfCounted,if_pos counted]
      exact ⟨_,List.mem_append_right _ (List.mem_singleton_self _),_,rfl⟩
    obtain ⟨e,member,flushes⟩ := sends
    refine ⟨e,?_,flushes⟩
    dsimp only
    split
    · exact member
    · exact member
    · exact serveSends member
    · exact serveSends member

theorem setSends {cl : ClusterState} {key : Bytes} (copied : (cl.slotStatus (keyHashSlot key)).isCopied = true)
    (unsettled : ¬ Settled (cl.slotStatus (keyHashSlot key))) :
    ∃ e ∈ (processCommand (pointed (keyHashSlot key)) cl .fresh (setOf key)).effects,
      Effect.flushes (keyHashSlot key) e.effect := by
  obtain ⟨q,asked,named⟩ := setNamesSlot cl key
  have long : 2 ≤ (setOf key).length := by simp [setOf]
  have isWrite : isWriteCommand .fresh setEntry = true := rfl
  obtain ⟨e,member,flushes⟩ := branchSends (pointed (keyHashSlot key)) cl .fresh q copied unsettled isWrite long
  refine ⟨e,?_,flushes⟩
  have block : processCommand (pointed (keyHashSlot key)) cl .fresh (setOf key) =
      clusterBlock (pointed (keyHashSlot key)) cl .fresh setEntry (setOf key) := rfl
  rw [block,clusterBlock,asked]
  dsimp only
  rw [named]
  dsimp only [afterBlock]
  split
  · exact member
  · unfold callOrRefuse
    split <;> exact member

end Failing

section Main

variable {before : List (Bytes × Bytes)} {last : Bytes × Bytes} {period : Nat}

theorem lastMode (modes : List (Bytes × Bytes)) {way : SyncWay} (chosen : syncWay last.1 = some way)
    (st : ConsistState) : ∃ forwardTime, runModes st (modes ++ [last]) =
      { selectSync way (runModes st modes) with
        cluster := { (selectSync way (runModes st modes)).cluster with forwardTime := forwardTime } } := by
  obtain ⟨forwardTime,same⟩ := runmodeValid chosen (runModes st modes)
  refine ⟨forwardTime,?_⟩
  rw [← same,runModes,List.foldl_append]
  rfl

theorem tenthsBreak {t : Nat} (valid : ∀ mode ∈ before, ValidMode mode) (chosen : syncWay last.1 = some (.tenths t)) :
    ¬ Exclusive (before ++ [last]) period := by
  intro exclusive
  obtain ⟨_,_,_,_,shape,_⟩ := modesShape valid (copiedNode 0)
  obtain ⟨forwardTime,after⟩ := lastMode before chosen (copiedNode 0)
  obtain ⟨e,member,flushes⟩ := sendsSound (immediateSends forwardTime)
  have follows := exclusive (copiedNode 0) (copiedInitial 0) hotSlot rfl copiedSettled [.write (calm (clock 0)) .fresh setK]
    _ List.mem_cons_self
  rw [after,shape] at follows
  exact follows e member flushes

theorem leftoverBreaks {mode : Bytes × Bytes} {t : Nat} (valid : ∀ mode ∈ before, ValidMode mode)
    (chosen : syncWay last.1 = some .second) (inside : mode ∈ before) (tenth : syncWay mode.1 = some (.tenths t)) :
    ¬ Exclusive (before ++ [last]) 10 := by
  intro exclusive
  obtain ⟨low,high⟩ := tenthBound tenth
  obtain ⟨_,_,_,tenths,shape,selected⟩ := modesShape valid (copiedNode (t - 1))
  obtain ⟨forwardTime,after⟩ := lastMode before chosen (copiedNode (t - 1))
  let ready : ClusterState := { copiedCluster with isSync := true, syncTime := true, forwardTime := forwardTime }
  have state : runModes (copiedNode (t - 1)) (before ++ [last]) = ⟨ready,tenths,t - 1⟩ := by
    rw [after,shape]
    rfl
  have follows := exclusive (copiedNode (t - 1)) (copiedInitial _) hotSlot rfl copiedSettled
    [.write (calm (clock 0)) .fresh setK,.cron fun _ _ => .asStored] _ (List.mem_cons_of_mem _ List.mem_cons_self)
  rw [state] at follows
  have still : tenths t = true := (selected t).mpr (.inr ⟨mode,inside,tenth⟩)
  have next : (t - 1 + 1) % 2 ^ 64 = t := by omega
  obtain ⟨tick,flushed⟩ := cronFlushed (cachedDue forwardTime) low high still next
  simp only [laterStep,Follows] at follows
  have divided := follows flushed
  rw [tick] at divided
  omega

/-- The flags that the modes leave when the second is the last one and no tenth came before. -/
theorem secondAfter {start : ConsistState} (valid : ∀ mode ∈ before, ValidMode mode) (chosen : syncWay last.1 = some .second)
    (unused : ∀ mode ∈ before, ∀ t, syncWay mode.1 ≠ some (.tenths t)) (initial : Initial start) :
    SecondOnly (runModes start (before ++ [last])) ∧
      (runModes start (before ++ [last])).cluster.slotStatus = start.cluster.slotStatus := by
  obtain ⟨_,_,_,tenths,shape,selected⟩ := modesShape valid start
  obtain ⟨forwardTime,after⟩ := lastMode before chosen start
  rw [after]
  refine ⟨⟨rfl,fun t => ?_⟩,by rw [shape]; rfl⟩
  rw [shape]
  refine Bool.eq_false_iff.mpr fun chosenTenth => ?_
  rcases (selected t).mp chosenTenth with stored | ⟨mode,inside,tenth⟩
  · rw [initial.syncTenths t] at stored
    nomatch stored
  · exact unused mode inside t tenth

/-- The cadence is kept exactly when it is the second and none of the tenths was selected before; and then it is
kept for the slot of a key exactly when the slot has nothing left to send with its one-time sync. -/
theorem cadenceExclusive (valid : ∀ mode ∈ before ++ [last], ValidMode mode)
    (cadence : (syncWay last.1).bind periodOf = some period) :
    (Exclusive (before ++ [last]) period ↔
      syncWay last.1 = some .second ∧ ∀ mode ∈ before, ∀ t, syncWay mode.1 ≠ some (.tenths t)) ∧
    (syncWay last.1 = some .second → (∀ mode ∈ before, ∀ t, syncWay mode.1 ≠ some (.tenths t)) →
      ∀ start, Initial start → ∀ key, (start.cluster.slotStatus (keyHashSlot key)).isCopied = true →
        (Keeps start (before ++ [last]) period (keyHashSlot key) ↔
          Settled (start.cluster.slotStatus (keyHashSlot key)))) := by
  have validBefore : ∀ mode ∈ before, ValidMode mode := fun mode member => valid mode (List.mem_append_left _ member)
  obtain ⟨way,chosen,atPeriod⟩ := Option.bind_eq_some_iff.mp cadence
  cases way with
  | no => nomatch atPeriod
  | immd => nomatch atPeriod
  | tenths t =>
    refine ⟨⟨fun exclusive => absurd exclusive (tenthsBreak validBefore chosen),fun only => ?_⟩,fun second => ?_⟩
    · simp [chosen] at only
    · simp [chosen] at second
  | second =>
    obtain rfl := Option.some.inj atPeriod
    have keeps (start : ConsistState) (initial : Initial start)
        (unused : ∀ mode ∈ before, ∀ t, syncWay mode.1 ≠ some (.tenths t)) (slot : Slot)
        (copied : (start.cluster.slotStatus slot).isCopied = true) (settled : Settled (start.cluster.slotStatus slot)) :
        Keeps start (before ++ [last]) 10 slot := by
      obtain ⟨only,same⟩ := secondAfter validBefore chosen unused initial
      exact secondRun only (by rw [same]; exact ⟨copied,settled⟩)
    refine ⟨⟨fun exclusive => ⟨chosen,fun mode inside t tenth => leftoverBreaks validBefore chosen inside tenth exclusive⟩,
      fun ⟨_,unused⟩ start initial => keeps start initial unused⟩,
      fun _ unused start initial key copied => ⟨fun kept => ?_,keeps start initial unused _ copied⟩⟩
    obtain ⟨only,same⟩ := secondAfter validBefore chosen unused initial
    by_contra unsettled
    rw [← same] at copied unsettled
    obtain ⟨e,member,flushes⟩ := setSends copied unsettled
    exact kept [.write (pointed (keyHashSlot key)) .fresh (setOf key)] _ List.mem_cons_self e member flushes

def immdSkew : Bytes × Bytes := (textImmd,textSkew)
def secondAvg : Bytes × Bytes := (text1s,textAvg)
def halfAvg : Bytes × Bytes := ([48,53],textAvg)

theorem cadenceExclusiveShown : Exclusive [immdSkew,secondAvg] 10 := by
  have immd : syncWay immdSkew.1 = some .immd := by decide
  refine (@cadenceExclusive [immdSkew] secondAvg 10 (by decide) (by decide)).1.mpr ⟨by decide,fun mode inside t => ?_⟩
  obtain rfl := List.mem_singleton.mp inside
  rw [immd]
  exact nofun

/-- The cadence of half a second sends every write at once, and outlives the choice of the second. -/
theorem halfSecondFails : (∀ mode ∈ [halfAvg,secondAvg], ValidMode mode) ∧
    (syncWay halfAvg.1).bind periodOf = some 5 ∧ ¬ Exclusive [halfAvg] 5 ∧
    (syncWay secondAvg.1).bind periodOf = some 10 ∧ ¬ Exclusive [halfAvg,secondAvg] 10 := by
  have half : syncWay halfAvg.1 = some (.tenths 5) := by decide
  have second : syncWay secondAvg.1 = some .second := by decide
  have validHalf : ∀ mode ∈ [halfAvg], ValidMode mode := by decide
  have validNone : ∀ mode ∈ ([] : List (Bytes × Bytes)), ValidMode mode := nofun
  exact ⟨by decide,by decide,tenthsBreak validNone half,by decide,
    leftoverBreaks validHalf second List.mem_cons_self half⟩

end Main

end HpuCache.Cadence
