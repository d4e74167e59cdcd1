import HpuCache.FanOut
import HpuCache.HotConvergence

/-! The hot group seen from its servers. What a client command does to the cache of the
slot is a run of flushes and writes of the network, and a forwarded command is dropped
or executed as a delivery is. -/
namespace HpuCache.HotRefinement
open ByteText KeySlot KeyedDict CommandCache ServerState GroupCommands ProcessCommand SlotTrace CommandPath FanOut
open WriteCommands Coalescing EventRun FifoLinks HotConvergence

structure Views (own seen : SlotState) : Prop where
  cached : seen.cachedOp = own.cachedOp
  size : seen.cacheOpSize = own.cacheOpSize

theorem viewsAdded {own seen : SlotState} (op : CacheOps) (views : Views own seen) :
    Views (added op own) (added op seen) :=
  ⟨by simp [added,views.cached],by simp [added,views.size]⟩

theorem viewsFlushed {own seen : SlotState} (order : IterOrder CacheOps) (x : NodeId) (views : Views own seen)
    (bounded : Bounded own) (related : seen.relatedIns = own.relatedIns) :
    Views (broadcastCommandInHotGroup order x own).1 (broadcastCommandInHotGroup order x seen).1 ∧
    (broadcastCommandInHotGroup order x seen).2 = (broadcastCommandInHotGroup order x own).2 := by
  have seenBounded : Bounded seen := by simpa only [Bounded,views.cached,views.size] using bounded
  rw [broadcastAll order x own bounded,broadcastAll order x seen seenBounded]
  simp only [views.cached,views.size,related]
  exact ⟨⟨rfl,rfl⟩,trivial⟩

/-- What a run does when one member acts: its writes, and what it sends. -/
structure Acted (x : NodeId) (writes : List ClientWrite) (sends : List Send) (net next : Net) : Prop where
  others : ∀ y, y ≠ x → next.member y = net.member y
  store : next.store = Function.update net.store x (runAll execWrite (writes.map ClientWrite.argv) (net.store x))
  links : next.links = post net.links x (fun y => sentTo y sends)

theorem Acted.idle (x : NodeId) (net : Net) : Acted x [] [] net net :=
  ⟨fun _ _ => rfl,(Function.update_eq_self _ _).symm,(postNone _ _ (fun _ => rfl)).symm⟩

theorem Acted.trans {x : NodeId} {ws vs : List ClientWrite} {ss ts : List Send} {net mid next : Net}
    (first : Acted x ws ss net mid) (second : Acted x vs ts mid next) : Acted x (ws ++ vs) (ss ++ ts) net next := by
  refine ⟨fun y other => (second.others y other).trans (first.others y other),?_,?_⟩
  · rw [second.store,first.store,Function.update_self,Function.update_idem,List.map_append]
    simp [runAll]
  · rw [second.links,first.links,postTwice]
    simp

def addedOps (es : List Effect) : List CacheOps := cachedOps (es.map (Logged.mk []))

/-- Writes of one member and one slot whose stamps are new, one after the other. -/
def Timed (x : NodeId) (hot : Slot) : List ClientWrite → List ClientWrite → Prop
  | _, [] => True
  | issued, w :: rest => (w.source = x ∧ keyHashSlot w.key = hot ∧ Stamped issued w) ∧ Timed x hot (w :: issued) rest

section trace
variable {nodes : List NodeId} {hot : Slot} {x : NodeId} {group : Roster} {own : CacheOps → Prop}

theorem writeActs {net : Net} {w : ClientWrite} (inside : w.source ∈ nodes) (inSlot : keyHashSlot w.key = hot)
    (stamped : Stamped net.issued w) : ∃ next, step nodes hot net (.write w) = some next ∧
      next.member w.source = added w.op (net.member w.source) ∧ next.issued = w :: net.issued ∧
      Acted w.source [w] [] net next := by
  have stored : addCmdToCache w.now w.argv (net.member w.source) = some (added w.op (net.member w.source)) := by
    simp only [addCmdToCache,writeBuilt w]
    rfl
  have client : w.source ∈ nodes ∧ keyHashSlot w.key = hot ∧ Stamped net.issued w := ⟨inside,inSlot,stamped⟩
  have taken : step nodes hot net (.write w) = some ⟨Function.update net.member w.source
      (added w.op (net.member w.source)),
      Function.update net.store w.source (execWrite w.argv (net.store w.source)),net.links,w :: net.issued,
      Function.update net.ran w.source (w.op :: net.ran w.source)⟩ := by
    rw [step,if_pos client,stored]
  exact ⟨_,taken,Function.update_self ..,rfl,fun y other => Function.update_of_ne other ..,rfl,
    (postNone _ _ (fun _ => rfl)).symm⟩

theorem flushActs (hot : Slot) (net : Net) (order : IterOrder CacheOps) (inside : x ∈ nodes) :
    ∃ next, step nodes hot net (.flush x order) = some next ∧
      next.member x = (broadcastCommandInHotGroup order x (net.member x)).1 ∧ next.issued = net.issued ∧
      Acted x [] (broadcastCommandInHotGroup order x (net.member x)).2 net next := by
  have taken : step nodes hot net (.flush x order) = some { net with
      member := Function.update net.member x (broadcastCommandInHotGroup order x (net.member x)).1,
      links := post net.links x (fun y => sentTo y (broadcastCommandInHotGroup order x (net.member x)).2) } := by
    rw [step,if_pos inside]
  exact ⟨_,taken,Function.update_self ..,rfl,fun y other => Function.update_of_ne other ..,
    (Function.update_eq_self _ _).symm,rfl⟩

theorem traceFollows {a b : SlotState} {es : List Effect} (inside : x ∈ nodes)
    (trace : Trace x group hot own a es b) (bounded : Bounded a) {net : Net} {writes : List ClientWrite}
    (views : Views a (net.member x)) (related : (net.member x).relatedIns = group)
    (timed : Timed x hot net.issued writes) (same : addedOps es = writes.map ClientWrite.op) :
    ∃ events next, replay (step nodes hot) net events = some next ∧ Views b (next.member x) ∧
      Acted x writes (es.flatMap Effect.sends) net next := by
  induction trace generalizing net writes with
  | done =>
    obtain rfl : writes = [] := by simpa [addedOps,cachedOps] using same.symm
    exact ⟨[],net,rfl,views,.idle x net⟩
  | frame cached size _ ih =>
    exact ih (by simpa only [Bounded,cached,size] using bounded)
      ⟨views.cached.trans cached.symm,views.size.trans size.symm⟩ related timed same
  | @add a op effects c _ _ ih =>
    obtain ⟨w,rest,rfl,rfl,later⟩ : ∃ w rest, writes = w :: rest ∧ w.op = op ∧
        addedOps effects = rest.map ClientWrite.op := by
      cases writes with
      | nil => simp [addedOps,cachedOps] at same
      | cons w rest => exact ⟨w,rest,rfl,(List.cons.inj same).1.symm,(List.cons.inj same).2⟩
    obtain ⟨⟨rfl,inSlot,stamped⟩,timed⟩ := timed
    obtain ⟨mid,taken,member,issued,acted⟩ := writeActs inside inSlot stamped
    have after : Views (added w.op a) (mid.member w.source) := by
      rw [member]
      exact viewsAdded w.op views
    obtain ⟨events,next,done,held,rested⟩ := ih (addedBounded w.op bounded) after (by rw [member]; exact related)
      (by rw [issued]; exact timed) later
    exact ⟨.write w :: events,next,by simp only [replay,taken,bind,Option.bind_some,done],held,acted.trans rested⟩
  | @flush a effects c order current _ ih =>
    obtain ⟨mid,taken,member,issued,acted⟩ := flushActs hot net order inside
    obtain ⟨after,sends⟩ := viewsFlushed order x views bounded (related.trans current.symm)
    rw [← member] at after
    obtain ⟨events,next,done,held,rested⟩ := ih (broadcastBounded order x a bounded) after
      (by rw [member,broadcastRelated]; exact related) (by rw [issued]; exact timed)
      (by simpa [addedOps,cachedOps] using same)
    refine ⟨.flush x order :: events,next,by simp only [replay,taken,bind,Option.bind_some,done],held,?_⟩
    have both := acted.trans rested
    rw [sends] at both
    exact both

theorem commandFollows {cl : ClusterState} {env : Env} {c : Client} {net : Net} {w : ClientWrite}
    (inside : cl.myself ∈ nodes) (own : w.source = cl.myself) (clock : env.ustime = w.now) (sync : cl.isSync = true)
    (copying : (cl.slotStatus hot).isCopying = false) (bounded : Bounded (cl.slotStatus hot))
    (accepted : acceptedWrite hot cl (.command env c w.argv) = some w.argv)
    (views : Views (cl.slotStatus hot) (net.member cl.myself))
    (related : (net.member cl.myself).relatedIns = (cl.slotStatus hot).relatedIns)
    (inSlot : keyHashSlot w.key = hot) (stamped : Stamped net.issued w) :
    ∃ events next, replay (step nodes hot) net events = some next ∧
      Views ((processCommand env cl c w.argv).cluster.slotStatus hot) (next.member cl.myself) ∧
      Acted cl.myself [w] (((processCommand env cl c w.argv).effects.filter (fun e => e.slot = hot)).flatMap
        Effect.sends) net next := by
  have trace := (processTrace env cl c w.argv hot).1
  refine traceFollows inside trace bounded views related ⟨⟨own,inSlot,stamped⟩,trivial⟩ ?_
  have mine := (traceOrigin trace).2.1
  have adds := commandAdds copying sync (fun _ _ _ _ _ _ _ _ => accepted)
  rw [accepted] at adds
  cases adds with
  | nothing none _ => contradiction
  | @write now words op mid first order _ _ silent _ shape =>
    have inEffects : Effect.cached hot op ∈ first ++ (if cl.syncTime then [.cached hot op] else
        [.cached hot op,.flushed hot (flushRecord order cl.myself (added op mid))]) := by
      refine List.mem_append_right _ ?_
      split <;> exact List.mem_cons_self
    rw [shape] at mine ⊢
    have built : cacheOps w.now w.argv = some op := clock ▸ mine op inEffects
    cases Option.some.inj ((writeBuilt w).symm.trans built)
    rw [addedOps,List.map_append,cachedAppend,cachedSilent silent]
    split <;> rfl

end trace

theorem callNotDropped {env : Env} {cl : ClusterState} {c : Client} {cmd : RedisCommand} {argv : List Bytes} :
    (callOrRefuse env cl c cmd argv [] none).exit ≠ .dropped := by
  unfold callOrRefuse
  split
  · rename_i exit later
    obtain ⟨check,member,rfl⟩ := laterExitMem later
    simp only [laterChecks,List.mem_cons,List.not_mem_nil,or_false] at member
    rcases member with rfl | rfl | rfl | rfl | rfl | rfl | rfl | rfl | rfl | rfl <;> exact fun same => by cases same
  · exact fun same => by cases same

theorem syncNotDropped {env : Env} {cl : ClusterState} {c : Client} {argv : List Bytes} (sync : c.sync = true) :
    (dispatch env cl c argv).exit ≠ .dropped := by
  unfold dispatch
  split
  · exact fun same => by cases same
  · rw [syncSkipsBlock sync]
    repeat' split
    all_goals first | exact callNotDropped | contradiction | exact fun same => by cases same

/-- The server drops the forwarded write that the network drops, and executes no other command
than the one that the network executes. -/
theorem deliveryFollows {hot : Slot} {cl : ClusterState} {env : Env} {c : Client} {net : Net} {y : NodeId}
    {w : ClientWrite} (enabled : env.clusterEnabled = true) (keyFree : ZeroFree w.key) (valueFree : ZeroFree w.value) (inSlot : keyHashSlot w.key = hot)
    (views : Views (cl.slotStatus hot) (net.member y)) :
    (processCommand env cl c w.op.argv).cluster = cl ∧
    ((processCommand env cl c w.op.argv).exit = .dropped ↔ dropped hot net y w.op = true) ∧
    ∀ cmd args, (processCommand env cl c w.op.argv).exit = .called cmd args → args = w.argv := by
  have magic : strncmpEqual (w.op.argv.headD []) magicWord 6 = true := rfl
  refine ⟨(forwardedNoEcho magic).1,?_,fun cmd args called => ?_⟩
  · have server := opBranch (fun s => (cl.slotStatus s).cachedOp) keyFree valueFree
    have network := opBranch (cachedAt hot (net.member y)) keyFree valueFree
    rw [cachedAt,if_pos inSlot,views.cached] at network
    rw [inSlot,← network] at server
    have quit : strcasecmpEqual (w.op.argv.headD []) textQuit = false := rfl
    rw [processCommand,quit,dropped,server]
    cases branch : magicBranch (cachedAt hot (net.member y)) w.op.argv with
    | plain => exact absurd branch (magicNotPlain magic)
    | fault => simp
    | stale => simp [followCluster,enabled]
    | inner argv => simpa [followCluster,enabled] using syncNotDropped rfl
  · rw [forwardedCalled magic called]
    exact opInner w keyFree valueFree

end HpuCache.HotRefinement
