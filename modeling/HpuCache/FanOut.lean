import HpuCache.CommandPath
import HpuCache.CommandTable
import HpuCache.EventRun
import HpuCache.LatestEntry
import HpuCache.MemberStep

/-! What a member of a hot group sends. The log keeps every addition to the cache of
one slot and every flush of it, next to the writes that the member accepted; each
flush sends what was added since the one before, and in the immediate mode every
member is sent just the accepted writes. -/
namespace HpuCache.FanOut
open ByteText KeySlot KeyedDict LatestEntry CommandCache ServerState GroupCommands NodeQuery ProcessCommand
open SlotTrace CommandPath CommandTable MemberStep EventRun

/-- An effect, and the group when the step began that caused it. -/
structure Logged where
  members : List NodeId
  effect : Effect

def pendingStep (ops : List CacheOps) : Effect → List CacheOps
  | .cached _ op => ops ++ [op]
  | .flushed _ _ => []

/-- The entries added since the last flush, oldest first. -/
def pendingFrom (ops : List CacheOps) (log : List Logged) : List CacheOps :=
  log.foldl (fun ops entry => pendingStep ops entry.effect) ops

def pending (log : List Logged) : List CacheOps := pendingFrom [] log

theorem pendingAppend (first second : List Logged) :
    pending (first ++ second) = pendingFrom (pending first) second := List.foldl_append ..

/-- A flush that leaves nothing behind and sends every other member the last entry of
each key, and nobody else anything. -/
structure ExactFlush (myself : NodeId) (members : List NodeId) (ops : List CacheOps) (f : Flush) : Prop where
  left : f.left = []
  other : ∀ node, node ∉ members ∨ node = myself → sentTo node f.sends = []
  once : ∀ node, ((sentTo node f.sends).map CacheOps.key).Nodup
  latest : ∀ node ∈ members, node ≠ myself → ∀ op, op ∈ sentTo node f.sends ↔ Latest CacheOps.key ops op

theorem flushExact {myself : NodeId} {order : IterOrder CacheOps} {a : SlotState} {ops : List CacheOps}
    (bounded : Bounded a) (held : Holds a.cachedOp ops) :
    ExactFlush myself a.relatedIns.entries ops (flushRecord order myself a) := by
  have sent := broadcastSentTo order myself a bounded
  have perm := order.perm a.cachedOp.entries
  refine ⟨?_,fun node away => ?_,fun node => ?_,fun node member other op => ?_⟩
  · rw [flushRecord,broadcastAll order myself a bounded]
    rfl
  · rw [flushRecord,sent,if_neg]
    rintro ⟨member,other⟩
    exact away.elim (fun h => h member) other
  · rw [flushRecord,sent]
    split
    · exact (perm.map _).nodup_iff.mpr a.cachedOp.distinct
    · exact .nil
  · rw [flushRecord,sent,if_pos ⟨member,other⟩,perm.mem_iff]
    exact held op

theorem traceExact {myself : NodeId} {group : Roster} {slot : Slot} {own : CacheOps → Prop}
    {a b : SlotState} {es : List Effect} {ops : List CacheOps}
    (trace : Trace myself group slot own a es b) (bounded : Bounded a) (held : Holds a.cachedOp ops) :
    Holds b.cachedOp (pendingFrom ops (es.map (Logged.mk group.entries))) ∧
    ∀ before f after, es = before ++ .flushed slot f :: after →
      ExactFlush myself group.entries (pendingFrom ops (before.map (Logged.mk group.entries))) f := by
  induction trace generalizing ops with
  | done => exact ⟨held,by simp⟩
  | frame cached size _ ih =>
    exact ih (by simpa only [Bounded,cached,size] using bounded) (by simpa only [cached] using held)
  | @add a op effects c mine rest ih =>
    obtain ⟨last,flushes⟩ := ih (addedBounded op bounded) (holdsReplace held op)
    refine ⟨last,?_⟩
    rintro (_ | ⟨first,before⟩) f after shape
    · cases (List.cons.inj shape).1
    · obtain ⟨rfl,tail⟩ := List.cons.inj shape
      exact flushes before f after tail
  | @flush a effects c order current rest ih =>
    have cleared : Holds (broadcastCommandInHotGroup order myself a).1.cachedOp [] := by
      rw [broadcastAll order myself a bounded]
      exact holdsEmpty
    obtain ⟨last,flushes⟩ := ih (broadcastBounded order myself a bounded) cleared
    refine ⟨last,?_⟩
    rintro (_ | ⟨first,before⟩) f after shape
    · cases (List.cons.inj shape).1
      rw [← current]
      exact flushExact bounded held
    · obtain ⟨rfl,tail⟩ := List.cons.inj shape
      exact flushes before f after tail

theorem traceSilent {myself : NodeId} {group : Roster} {slot : Slot} {a b : SlotState} {es : List Effect}
    (trace : Trace myself group slot (fun _ => False) a es b) (bare : a.cachedOp.entries = []) :
    b.cachedOp.entries = [] ∧ ∀ f, Effect.flushed slot f ∈ es → f.sends = [] := by
  obtain ⟨held,none,sent⟩ := traceOrigin trace
  refine ⟨List.eq_nil_iff_forall_not_mem.mpr (fun op member => ?_),fun f member => ?_⟩
  · rcases held op member with old | new
    · simp [bare] at old
    · exact none op new
  · refine List.eq_nil_iff_forall_not_mem.mpr (fun send inside => ?_)
    rcases sent f member send inside with old | new
    · simp [bare] at old
    · exact none _ new

/-- The arguments of a client write that the member executes as a copy of the slot. -/
def acceptedWrite (s : Slot) (cl : ClusterState) : MemberEvent → Option (List Bytes)
  | .command env c argv =>
    let out := processCommand env cl c argv
    match out.touched, out.exit with
    | some (.stored t), .called cmd _ =>
      if t = s && isWriteCommand c cmd && servesAsCopy cl out.client s then some argv else none
    | _, _ => none
  | _ => none

section serve
variable {env : Env} {cl : ClusterState} {c : Client} {cmd : RedisCommand} {argv : List Bytes}
  {q : Query} {s : Slot} {st : SlotState} {effects : List Effect}

theorem copiedWriteEffects {b : SlotState} {more : List Effect} (sync : cl.isSync = true)
    (written : copiedWrite env cl s true argv st = some (b,more)) :
    ∃ op, cacheOps env.ustime argv = some op ∧
      more = if cl.syncTime then [.cached s op]
        else [.cached s op,.flushed s (flushRecord env.writeOrder cl.myself (added op st))] := by
  simp only [copiedWrite,sync,Bool.and_self,if_true,bind,Option.bind_eq_some_iff] at written
  obtain ⟨⟨mid,first⟩,stored,written⟩ := written
  obtain ⟨op,built,rfl,rfl⟩ := addWriteSpec stored
  refine ⟨op,built,?_⟩
  dsimp only at written
  split at written
  · rename_i timed
    cases Option.some.inj written
    rw [if_pos timed]
  · rename_i timed
    cases Option.some.inj written
    rw [if_neg timed]
    rfl

end serve

/-- The events of the runs that are spoken of: the slot stays copied, the group is kept in
step, and a write that the slot takes as a copy is executed. -/
def WithinRun (s : Slot) (cl : ClusterState) : MemberEvent → Prop
  | .command env c argv =>
    let out := processCommand env cl c argv
    ∀ h cmd, out.touched = some h → h.slot? = some s → env.commands (argv.headD []) = some cmd →
      isWriteCommand c cmd = true → Exit.served out.exit = true → servesAsCopy cl out.client s = true →
      acceptedWrite s cl (.command env c argv) = some argv
  | .runmode syncWay _ => strcasecmpEqual syncWay textNo = false
  | .setslot _ t => t ≠ s
  | _ => True

/-- What one step adds to the log of the slot. -/
inductive Adds (s : Slot) (cl : ClusterState) (argv : Option (List Bytes)) (es : List Effect)
    (last : SlotState) : Prop where
  | nothing (none : argv = none)
      (trace : Trace cl.myself (cl.slotStatus s).relatedIns s (fun _ => False) (cl.slotStatus s) es last)
  | write {now words op mid first} (order : IterOrder CacheOps) (accepted : argv = some words)
      (built : cacheOps now words = some op)
      (trace : Trace cl.myself (cl.slotStatus s).relatedIns s (fun _ => False) (cl.slotStatus s) first mid)
      (kept : Kept (cl.slotStatus s) mid)
      (shape : es = first ++ if cl.syncTime then [.cached s op]
        else [.cached s op,.flushed s (flushRecord order cl.myself (added op mid))])

theorem acceptedStored {env cl c argv s words}
    (accepted : acceptedWrite s cl (.command env c argv) = some words) :
    words = argv ∧ ∃ cmd args, (processCommand env cl c argv).touched = some (.stored s) ∧
      (processCommand env cl c argv).exit = .called cmd args ∧ isWriteCommand c cmd = true ∧
      servesAsCopy cl (processCommand env cl c argv).client s = true := by
  simp only [acceptedWrite] at accepted
  split at accepted <;> try contradiction
  rename_i t cmd args touched exit
  split at accepted <;> try contradiction
  rename_i checks
  simp only [Bool.and_eq_true,decide_eq_true_eq] at checks
  obtain ⟨⟨rfl,write⟩,copy⟩ := checks
  exact ⟨(Option.some.inj accepted).symm,cmd,args,touched,exit,write,copy⟩

theorem notAccepted {env cl c argv s}
    (apart : ∀ cmd args, (processCommand env cl c argv).touched = some (.stored s) →
      (processCommand env cl c argv).exit = .called cmd args → isWriteCommand c cmd = true →
      servesAsCopy cl (processCommand env cl c argv).client s = true → False) :
    acceptedWrite s cl (.command env c argv) = none := by
  cases accepted : acceptedWrite s cl (.command env c argv) with
  | none => rfl
  | some words =>
    obtain ⟨_,cmd,args,touched,exit,write,copy⟩ := acceptedStored accepted
    exact (apart cmd args touched exit write copy).elim

theorem blockAdds {env cl c cmd argv s q} (copying : (cl.slotStatus s).isCopying = false)
    (sync : cl.isSync = true) (within : WithinRun s cl (.command env c argv))
    (known : env.commands (argv.headD []) = some cmd) (inside : (Query.variable env q).slot? = some s)
    (same : processCommand env cl c argv =
      afterBlock env cmd argv (Query.variable env q) (hotSlotBranches env cl c cmd argv q s)) :
    Adds s cl (acceptedWrite s cl (.command env c argv))
      (hotSlotBranches env cl c cmd argv q s).effects
      ((hotSlotBranches env cl c cmd argv q s).cluster.slotStatus s) := by
  have touched : (processCommand env cl c argv).touched = some (Query.variable env q) := by
    rw [same]
    exact (afterBlockSame _ _ _ _ _).2.2
  obtain ⟨first,kept⟩ := oneTimeSyncTrace env cl.myself s (fun _ => False)
    (rfl : (cl.slotStatus s).relatedIns = _)
  obtain ⟨c',own,way⟩ := branchServes env c cmd argv q (by rw [copying,Bool.and_false])
  have writes : ∀ cmd, isWriteCommand c' cmd = isWriteCommand c cmd := by
    rcases own with rfl | ⟨rfl,_⟩ <;> exact fun _ => rfl
  generalize hotSlotBranches env cl c cmd argv q s = block at way same
  have silent := first.append (.idle rfl rfl (b := { (oneTimeSync env cl.myself s (cl.slotStatus s)).1 with
    dealedOps := (oneTimeSync env cl.myself s (cl.slotStatus s)).1.dealedOps + 1 }))
  rw [List.append_nil] at silent
  cases way with
  | stopped unserved =>
    refine .nothing (notAccepted (fun cmd' args _ exit _ _ => ?_)) ?_
    · rw [same,afterBlock] at exit
      dsimp only at exit
      rw [exit] at unserved
      contradiction
    · rw [setSlotSame]
      exact first
  | plain copy _ =>
    refine .nothing (notAccepted (fun cmd' args _ _ _ served => ?_)) ?_
    · rw [same,afterBlock] at served
      simp only [servesAsCopy,isNoForward,callOrRefuseForward] at served copy
      rw [served] at copy
      contradiction
    · rw [setSlotSame]
      exact silent
  | @copy b more copy written =>
    rw [writes cmd] at written
    have forward : servesAsCopy cl (processCommand env cl c argv).client s = true := by
      rw [same,afterBlock]
      simpa only [servesAsCopy,isNoForward,callOrRefuseForward] using copy
    cases write : isWriteCommand c cmd with
    | false =>
      simp only [copiedWrite,write,Bool.false_and,Bool.false_eq_true,if_false,Option.some.injEq,
        Prod.mk.injEq] at written
      obtain ⟨rfl,rfl⟩ := written
      refine .nothing (notAccepted (fun cmd' args _ exit write' _ => ?_)) ?_
      · rw [same,afterBlock] at exit
        dsimp only at exit
        rw [(callOrRefuseCalled exit).1,write] at write'
        contradiction
      · rw [setSlotSame,List.append_nil]
        exact silent
    | true =>
      rw [write] at written
      obtain ⟨op,built,rfl⟩ := copiedWriteEffects sync written
      have served : Exit.served (processCommand env cl c argv).exit = true := by
        rw [same,afterBlock]
        exact callOrRefuseServed ..
      exact .write env.writeOrder (within _ cmd touched inside known write served forward) built first kept rfl

theorem commandAdds {env cl c argv s} (copying : (cl.slotStatus s).isCopying = false)
    (sync : cl.isSync = true) (within : WithinRun s cl (.command env c argv)) :
    Adds s cl (acceptedWrite s cl (.command env c argv))
      ((processCommand env cl c argv).effects.filter (fun e => e.slot = s))
      ((processCommand env cl c argv).cluster.slotStatus s) := by
  obtain ⟨out,same⟩ : ∃ out, processCommand env cl c argv = out := ⟨_,rfl⟩
  have untouched : out.cluster = cl → out.effects = [] → (∀ cmd args, out.touched = some (.stored s) →
      out.exit = .called cmd args → False) →
      Adds s cl (acceptedWrite s cl (.command env c argv))
        ((processCommand env cl c argv).effects.filter (fun e => e.slot = s))
        ((processCommand env cl c argv).cluster.slotStatus s) := by
    intro cluster effects apart
    refine .nothing (notAccepted (fun cmd args touched exit _ _ => ?_)) ?_
    · rw [same] at touched exit
      exact apart cmd args touched exit
    · rw [same,cluster,effects]
      exact .done _
  have way := processWay env cl c argv
  rw [same] at way
  cases way with
  | early cluster effects touched _ => exact untouched cluster effects (by simp [touched])
  | bypass _ _ _ =>
    obtain ⟨cluster,effects,touched⟩ := callOrRefuseSame env cl _ _ _ [] none
    exact untouched cluster effects (by simp [touched])
  | @routed cmd word accepted guard =>
    unfold clusterBlock at same untouched
    split at same
    · rename_i asked
      exact untouched (by rw [asked]) (by rw [asked]) (by simp [asked])
    rename_i q asked
    simp only [asked] at untouched
    split at same
    · rename_i outside
      simp only [outside] at untouched
      exact untouched trivial trivial (by simp)
    rename_i t inside
    by_cases here : t = s
    · subst here
      have spec := blockAdds copying sync within accepted.known inside same
      obtain ⟨st,shape,_,trace⟩ := (hotSlotBranchesSpec env cl c cmd argv q t).shape
      rw [same,(afterBlockSame _ _ _ _ _).1,(afterBlockSame _ _ _ _ _).2.1,
        List.filter_eq_self.mpr (by simpa using traceSlots trace)]
      exact spec
    · obtain ⟨st,shape,_,trace⟩ := (hotSlotBranchesSpec env cl c cmd argv q t).shape
      have none : (processCommand env cl c argv).effects.filter (fun e => e.slot = s) = [] := by
        rw [same,(afterBlockSame _ _ _ _ _).2.1]
        apply List.filter_eq_nil_iff.mpr
        intro e member
        rw [traceSlots trace e member]
        simpa using here
      refine .nothing (notAccepted (fun cmd' args touched _ _ _ => ?_)) ?_
      · rw [same,(afterBlockSame _ _ _ _ _).2.2] at touched
        rw [Option.some.inj touched,storedSlot?] at inside
        exact here (Option.some.inj inside).symm
      · rw [none,same,(afterBlockSame _ _ _ _ _).1,shape,setSlotOther cl st (Ne.symm here)]
        exact .done _

theorem memberAdds {nodes : List NodeId} {cl : ClusterState} {s : Slot} {event : MemberEvent} {r : MemberResult}
    (ok : memberStep nodes cl event = .ok r) (copying : (cl.slotStatus s).isCopying = false)
    (sync : cl.isSync = true) (within : WithinRun s cl event) :
    Adds s cl (acceptedWrite s cl event) (r.effects.filter (fun e => e.slot = s)) (r.cluster.slotStatus s) := by
  have trace := (memberStepSpec ok).trace s
  cases event with
  | command env c argv =>
    have same : r = ⟨(processCommand env cl c argv).cluster,(processCommand env cl c argv).effects,[]⟩ := by
      simp only [memberStep] at ok
      split at ok <;> try contradiction
      exact (Except.ok.inj ok).symm
    rw [same]
    exact commandAdds copying sync within
  | _ => exact .nothing rfl trace

structure Fan where
  cluster : ClusterState
  -- The additions and flushes of the slot, oldest first.
  log : List Logged
  -- The accepted writes of the slot, and those made while a node was another member.
  writes : List (List Bytes)
  owed : NodeId → List (List Bytes)

def fanStep (nodes : List NodeId) (s : Slot) (f : Fan) (event : MemberEvent) : Option Fan :=
  match memberStep nodes f.cluster event with
  | .error _ => none
  | .ok r =>
    let members := (f.cluster.slotStatus s).relatedIns.entries
    let accepted := (acceptedWrite s f.cluster event).toList
    some ⟨r.cluster,f.log ++ (r.effects.filter (fun e => e.slot = s)).map (Logged.mk members),
      f.writes ++ accepted,
      fun node => if node ∈ members ∧ node ≠ f.cluster.myself then f.owed node ++ accepted else f.owed node⟩

def body (op : CacheOps) : List Bytes := op.argv.drop 2

def cachedOps (log : List Logged) : List CacheOps :=
  log.filterMap (fun entry => match entry.effect with | .cached _ op => some op | .flushed _ _ => none)

def sentLog (node : NodeId) (log : List Logged) : List CacheOps :=
  log.flatMap (fun entry => match entry.effect with | .cached _ _ => [] | .flushed _ f => sentTo node f.sends)

/-- An accepted write whose arguments the cache keeps as they are. -/
def PlainWrite (s : Slot) (cl : ClusterState) (event : MemberEvent) : Prop :=
  ∀ argv, acceptedWrite s cl event = some argv → ∀ a ∈ argv, ZeroFree a

structure FanInv (myself : NodeId) (s : Slot) (f : Fan) : Prop where
  named : f.cluster.myself = myself
  sync : f.cluster.isSync = true
  copying : (f.cluster.slotStatus s).isCopying = false
  bounded : Bounded (f.cluster.slotStatus s)
  held : Holds (f.cluster.slotStatus s).cachedOp (pending f.log)
  flushes : ∀ before members flush after, f.log = before ++ ⟨members,.flushed s flush⟩ :: after →
    ExactFlush myself members (pending before) flush
  cached : (cachedOps f.log).map body = f.writes
  built : ∀ op ∈ cachedOps f.log, ∃ now words, cacheOps now words = some op

theorem fanCases {nodes : List NodeId} {s : Slot} {f g : Fan} {event : MemberEvent}
    (taken : Takes (fanStep nodes s) f event g) :
    ∃ r, memberStep nodes f.cluster event = .ok r ∧ g.cluster = r.cluster ∧
      g.log = f.log ++ (r.effects.filter (fun e => e.slot = s)).map
        (Logged.mk (f.cluster.slotStatus s).relatedIns.entries) ∧
      g.writes = f.writes ++ (acceptedWrite s f.cluster event).toList ∧
      ∀ node, g.owed node = if node ∈ (f.cluster.slotStatus s).relatedIns.entries ∧
        node ≠ f.cluster.myself then f.owed node ++ (acceptedWrite s f.cluster event).toList
        else f.owed node := by
  simp only [Takes,fanStep] at taken
  split at taken <;> try contradiction
  rename_i r ok
  cases Option.some.inj taken
  exact ⟨r,ok,rfl,rfl,rfl,fun _ => rfl⟩

theorem syncKept {nodes : List NodeId} {cl : ClusterState} {event : MemberEvent} {r : MemberResult} {s : Slot}
    (ok : memberStep nodes cl event = .ok r) (within : WithinRun s cl event) (sync : cl.isSync = true) :
    r.cluster.isSync = true := by
  cases event with
  | runmode syncWay forwardWay =>
    cases Except.ok.inj ok
    exact (runmodeModes syncWay forwardWay cl).1 within sync
  | _ => rw [((memberStepSpec ok).modes (by simp)).1,sync]

theorem copyingKept {nodes : List NodeId} {cl : ClusterState} {event : MemberEvent} {r : MemberResult} {s : Slot}
    (ok : memberStep nodes cl event = .ok r) (within : WithinRun s cl event)
    (copying : (cl.slotStatus s).isCopying = false) : (r.cluster.slotStatus s).isCopying = false := by
  have flags := congrArg Flags.copying ((memberStepSpec ok).flags s)
  change (r.cluster.slotStatus s).isCopying = _ at flags
  rw [flags]
  cases event with
  | setslot finished t =>
    rw [flagsAfter,if_neg (fun h => within h.1)]
    exact copying
  | hotgroup order word t =>
    simp only [flagsAfter]
    split
    · rfl
    · exact copying
  | packet msg =>
    simp only [flagsAfter]
    split <;> exact copying
  | _ => exact copying

section silent
variable {myself : NodeId} {group : Roster} {slot : Slot} {a b : SlotState} {es : List Effect}

theorem cachedSilent (trace : Trace myself group slot (fun _ => False) a es b) (members : List NodeId) :
    cachedOps (es.map (Logged.mk members)) = [] := by
  rw [cachedOps,List.filterMap_eq_nil_iff]
  intro entry member
  obtain ⟨effect,inside,rfl⟩ := List.mem_map.mp member
  have own := traceSlots trace effect inside
  cases effect with
  | cached t op =>
    obtain rfl : t = slot := own
    exact ((traceOrigin trace).2.1 op inside).elim
  | flushed => rfl

theorem sentSilent (trace : Trace myself group slot (fun _ => False) a es b) (bare : a.cachedOp.entries = [])
    (members : List NodeId) (node : NodeId) : sentLog node (es.map (Logged.mk members)) = [] := by
  rw [sentLog,List.flatMap_eq_nil_iff]
  intro entry member
  obtain ⟨effect,inside,rfl⟩ := List.mem_map.mp member
  have own := traceSlots trace effect inside
  cases effect with
  | cached => rfl
  | flushed t f =>
    obtain rfl : t = slot := own
    simp [(traceSilent trace bare).2 f inside]

end silent

theorem cachedAppend (xs ys : List Logged) : cachedOps (xs ++ ys) = cachedOps xs ++ cachedOps ys :=
  List.filterMap_append
theorem sentAppend (node : NodeId) (xs ys : List Logged) :
    sentLog node (xs ++ ys) = sentLog node xs ++ sentLog node ys := List.flatMap_append

theorem bodyVerbatim {now words op} (built : cacheOps now words = some op)
    (free : ∀ a ∈ words, ZeroFree a) : body op = words := by
  rw [body,cacheOpsVerbatim built free]
  rfl

theorem memCachedOps {log : List Logged} {op : CacheOps} (member : op ∈ cachedOps log) :
    ∃ members slot, ⟨members,.cached slot op⟩ ∈ log := by
  obtain ⟨⟨members,effect⟩,inside,own⟩ := List.mem_filterMap.mp member
  cases effect with
  | cached slot o =>
    cases Option.some.inj own
    exact ⟨members,slot,inside⟩
  | flushed => contradiction

/-- The cached entries of one step are its accepted write. -/
theorem addsCached {s : Slot} {cl : ClusterState} {argv : Option (List Bytes)} {es : List Effect}
    {last : SlotState} (adds : Adds s cl argv es last)
    (plain : ∀ words, argv = some words → ∀ a ∈ words, ZeroFree a) (members : List NodeId) :
    (cachedOps (es.map (Logged.mk members))).map body = argv.toList := by
  cases adds with
  | nothing none trace => rw [cachedSilent trace,none]; rfl
  | @write now words op mid first order accepted built trace kept shape =>
    rw [shape,List.map_append,cachedAppend,cachedSilent trace,List.nil_append,accepted]
    split <;> simp [cachedOps,bodyVerbatim built (plain words accepted)]

theorem fanKept {nodes : List NodeId} {s : Slot} {myself : NodeId} {f g : Fan} {event : MemberEvent}
    (inv : FanInv myself s f) (within : WithinRun s f.cluster event) (plain : PlainWrite s f.cluster event)
    (taken : Takes (fanStep nodes s) f event g) : FanInv myself s g := by
  obtain ⟨r,ok,cluster,log,writes,_⟩ := fanCases taken
  have spec := memberStepSpec ok
  have trace := spec.trace s
  obtain ⟨held,flushes⟩ := traceExact trace inv.bounded inv.held
  refine ⟨?_,?_,?_,?_,?_,?_,?_,?_⟩
  · rw [cluster,spec.tables.myself,inv.named]
  · rw [cluster]
    exact syncKept ok within inv.sync
  · rw [cluster]
    exact copyingKept ok within inv.copying
  · rw [cluster]
    exact traceBounded trace inv.bounded
  · rw [cluster,log,pendingAppend]
    exact held
  · intro before members flush after shape
    rw [log,List.append_eq_append_iff] at shape
    -- The flush was in the log already, or this step made it.
    rcases shape with ⟨early,rfl,rest⟩ | ⟨late,old,rest⟩
    · obtain ⟨front,back,split,rfl,tail⟩ := List.map_eq_append_iff.mp rest
      obtain ⟨effect,others,rfl,own,rfl⟩ := List.map_eq_cons_iff.mp tail
      cases own
      rw [pendingAppend]
      have exact_ := flushes front flush others split
      rwa [inv.named] at exact_
    · rcases late with _ | ⟨entry,others⟩
      · obtain ⟨effect,others,split,own,rfl⟩ := List.map_eq_cons_iff.mp rest.symm
        cases own
        have exact_ := flushes [] flush others split
        rw [List.append_nil] at old
        rw [inv.named,List.map_nil] at exact_
        rw [← old]
        exact exact_
      · obtain ⟨rfl,_⟩ := List.cons.inj rest
        exact inv.flushes before members flush others old
  · rw [log,writes,cachedAppend,List.map_append,inv.cached,
      addsCached (memberAdds ok inv.copying inv.sync within) plain]
  · intro op member
    rw [log,cachedAppend] at member
    rcases List.mem_append.mp member with old | new
    · exact inv.built op old
    · obtain ⟨members,t,entry⟩ := memCachedOps new
      obtain ⟨effect,inside,own⟩ := List.mem_map.mp entry
      cases own
      obtain rfl : t = s := traceSlots trace _ inside
      have mine := (traceOrigin trace).2.1 op inside
      cases event with
      | command env c argv => exact ⟨env.ustime,argv,mine⟩
      | _ => exact mine.elim

/-- In the immediate mode the cache is empty after every step, and every node has been
sent what it is owed. -/
structure Prompt (s : Slot) (f : Fan) : Prop where
  immediate : f.cluster.syncTime = false
  bare : (f.cluster.slotStatus s).cachedOp.entries = []
  sent : ∀ node, (sentLog node f.log).map body = f.owed node

theorem replaceBare {d : OpDict} (bare : d.entries = []) (op : CacheOps) : (d.replace op).entries = [op] := by
  simp [Dict.replace,Dict.delete,bare]

theorem flushOwn {order : IterOrder CacheOps} {myself : NodeId} {mid : SlotState} {op : CacheOps}
    (bounded : Bounded mid) (bare : mid.cachedOp.entries = []) (node : NodeId) :
    sentTo node (flushRecord order myself (added op mid)).sends =
      if node ∈ mid.relatedIns.entries ∧ node ≠ myself then [op] else [] := by
  have only : order.arrange (added op mid).cachedOp.entries = [op] :=
    List.perm_singleton.mp (replaceBare bare op ▸ order.perm _)
  rw [flushRecord,broadcastSentTo order myself _ (addedBounded op bounded),only]
  rfl

theorem promptKept {nodes : List NodeId} {s : Slot} {myself : NodeId} {f g : Fan} {event : MemberEvent}
    (inv : FanInv myself s f) (prompt : Prompt s f) (within : WithinRun s f.cluster event)
    (plain : PlainWrite s f.cluster event)
    (still : ∀ syncWay forwardWay, event = .runmode syncWay forwardWay → strcasecmpEqual syncWay text1s = false)
    (taken : Takes (fanStep nodes s) f event g) : Prompt s g := by
  obtain ⟨r,ok,cluster,log,_,owed⟩ := fanCases taken
  obtain ⟨immediate,bare,sent⟩ := prompt
  have mode : g.cluster.syncTime = false := by
    rw [cluster]
    cases event with
    | runmode syncWay forwardWay =>
      cases Except.ok.inj ok
      exact (runmodeModes syncWay forwardWay f.cluster).2 (still _ _ rfl) immediate
    | _ => rw [((memberStepSpec ok).modes (by simp)).2,immediate]
  have idle : ∀ node, acceptedWrite s f.cluster event = none → g.owed node = f.owed node := by
    intro node none
    rw [owed node,none]
    split <;> simp
  cases memberAdds ok inv.copying inv.sync within with
  | nothing none trace =>
    refine ⟨mode,by rw [cluster]; exact (traceSilent trace bare).1,fun node => ?_⟩
    rw [log,sentAppend,sentSilent trace bare,List.append_nil,sent node,idle node none]
  | @write now words op mid first order accepted built trace kept shape =>
    have empty := (traceSilent trace bare).1
    have bounded := traceBounded trace inv.bounded
    rw [immediate,if_neg (by decide)] at shape
    refine ⟨mode,?_,fun node => ?_⟩
    · -- The last effect of the step is a flush, and it leaves nothing.
      have full := (memberStepSpec ok).trace s
      obtain ⟨held,_⟩ := traceExact full inv.bounded inv.held
      rw [shape,List.map_append,pendingFrom,List.foldl_append] at held
      rw [cluster]
      exact List.eq_nil_iff_forall_not_mem.mpr (fun o member => latestNil o ((held o).mp member))
    · have flushed : sentLog node (([Effect.cached s op,
          .flushed s (flushRecord order f.cluster.myself (added op mid))]).map
          (Logged.mk (f.cluster.slotStatus s).relatedIns.entries)) =
          if node ∈ (f.cluster.slotStatus s).relatedIns.entries ∧ node ≠ f.cluster.myself
          then [op] else [] := by
        simp only [sentLog,List.map_cons,List.map_nil,List.flatMap_cons,List.flatMap_nil,
          List.nil_append,List.append_nil,flushOwn bounded empty,kept.related]
      rw [log,shape,List.map_append,sentAppend,sentAppend,sentSilent trace bare,List.nil_append,flushed,
        List.map_append,sent node,owed node,accepted]
      split <;> simp [bodyVerbatim built (plain words accepted)]

structure Started (s : Slot) (f : Fan) : Prop where
  sync : f.cluster.isSync = true
  copying : (f.cluster.slotStatus s).isCopying = false
  bare : (f.cluster.slotStatus s).cachedOp.entries = []
  counted : 0 ≤ (f.cluster.slotStatus s).cacheOpSize
  log : f.log = []
  writes : f.writes = []
  owed : ∀ node, f.owed node = []

theorem startedInv {s : Slot} {f : Fan} (started : Started s f) : FanInv f.cluster.myself s f := by
  obtain ⟨sync,copying,bare,counted,log,writes,_⟩ := started
  refine ⟨rfl,sync,copying,?_,?_,?_,?_,?_⟩
  · simpa [Bounded,Dict.size,bare] using counted
  · rw [log]
    intro op
    simp [bare,pending,pendingFrom,latestNil]
  · intro before members flush after shape
    rw [log] at shape
    simp at shape
  · rw [log,writes]
    rfl
  · rw [log]
    simp [cachedOps]

abbrev FanRun (nodes : List NodeId) (s : Slot) (start : Fan) : List MemberEvent → Fan → Prop :=
  Reach (Guarded (fun f event => WithinRun s f.cluster event ∧ PlainWrite s f.cluster event)
    (Takes (fanStep nodes s))) start

theorem fanRun {nodes : List NodeId} {s : Slot} {start f : Fan} {past : List MemberEvent}
    (started : Started s start) (run : FanRun nodes s start past f) : FanInv start.cluster.myself s f := by
  refine reachInvariant (startedInv started) ?_ run
  rintro f event g inv ⟨⟨within,plain⟩,taken⟩
  exact fanKept inv within plain taken

theorem promptRun {nodes : List NodeId} {s : Slot} {start f : Fan} {past : List MemberEvent}
    (started : Started s start) (run : FanRun nodes s start past f) (immediate : start.cluster.syncTime = false)
    (still : ∀ syncWay forwardWay, .runmode syncWay forwardWay ∈ past →
      strcasecmpEqual syncWay text1s = false) : Prompt s f := by
  induction run with
  | start =>
    refine ⟨immediate,started.bare,fun node => ?_⟩
    rw [started.log,started.owed node]
    rfl
  | @next past f event g before taken ih =>
    obtain ⟨⟨within,plain⟩,taken⟩ := taken
    exact promptKept (fanRun started before)
      (ih (fun a b member => still a b (List.mem_cons_of_mem _ member))) within plain
      (fun a b same => still a b (same ▸ List.mem_cons_self)) taken

/-- Every flush sends every other current member the latest entry of each key added since
the flush before and leaves nothing; what is added are the accepted writes; in the immediate
mode every node is sent the writes accepted while it was another member, each once and in
order; and a forwarded command adds and sends nothing. -/
theorem fanOutExact {nodes : List NodeId} {s : Slot} {start f : Fan} {past : List MemberEvent}
    (started : Started s start) (run : FanRun nodes s start past f) :
    (∀ before members flush after, f.log = before ++ ⟨members,.flushed s flush⟩ :: after →
      ExactFlush start.cluster.myself members (pending before) flush) ∧
    (cachedOps f.log).map body = f.writes ∧
    (start.cluster.syncTime = false →
      (∀ syncWay forwardWay, .runmode syncWay forwardWay ∈ past → strcasecmpEqual syncWay text1s = false) →
      ∀ node, (sentLog node f.log).map body = f.owed node) ∧
    ∀ env c argv, strncmpEqual (argv.headD []) magicWord 6 = true →
      (processCommand env f.cluster c argv).cluster = f.cluster ∧
      (processCommand env f.cluster c argv).effects = [] := by
  have inv := fanRun started run
  exact ⟨inv.flushes,inv.cached,fun immediate still => (promptRun started run immediate still).sent,
    fun env c argv magic => forwardedNoEcho magic⟩

def secondNode : Fan := ⟨.initial 1 2,[],[],fun _ => []⟩

theorem secondStarted (s : Slot) : Started s secondNode := ⟨rfl,rfl,rfl,le_refl 0,rfl,rfl,fun _ => rfl⟩

def joinThenSet (value : Bytes) : List MemberEvent :=
  [.hotgroup .asStored textAdd (keyHashSlot letterK),
    .packet (clusterBroadcastOwnAsHotInstance 1 (keyHashSlot letterK) 1),
    .command (calm (clock 0)) .fresh [textSet,letterK,value]]

def checkPlain (s : Slot) (f : Fan) : MemberEvent → Bool
  | .command env c argv =>
    decide (acceptedWrite s f.cluster (.command env c argv) = some argv) && decide (∀ a ∈ argv, ZeroFree a)
  | .hotgroup _ _ _ => true
  | .packet _ => true
  | .runmode syncWay _ => !strcasecmpEqual syncWay textNo
  | _ => false

theorem checkPlainSound (s : Slot) (f : Fan) (event : MemberEvent) (h : checkPlain s f event = true) :
    WithinRun s f.cluster event ∧ PlainWrite s f.cluster event := by
  cases event with
  | command env c argv =>
    simp only [checkPlain,Bool.and_eq_true,decide_eq_true_eq] at h
    refine ⟨fun _ _ _ _ _ _ _ _ => h.1,fun words accepted => ?_⟩
    cases Option.some.inj (accepted.symm.trans h.1)
    exact h.2
  | hotgroup order word t => exact ⟨trivial,by simp [PlainWrite,acceptedWrite]⟩
  | packet msg => exact ⟨trivial,by simp [PlainWrite,acceptedWrite]⟩
  | runmode syncWay forwardWay => exact ⟨by simpa [checkPlain,WithinRun] using h,by simp [PlainWrite,acceptedWrite]⟩
  | _ => contradiction

def knownNodes : List NodeId := [1,2]

def checkedStep (f : Fan) (event : MemberEvent) : Option Fan :=
  if checkPlain (keyHashSlot letterK) f event then fanStep knownNodes (keyHashSlot letterK) f event else none

theorem fanOutExactShown : ∃ past f, FanRun knownNodes (keyHashSlot letterK) secondNode past f ∧
    (sentLog 1 f.log).map body = [[textSet,letterK,letterA]] := by
  obtain ⟨f,done⟩ : ∃ f, replay checkedStep secondNode (joinThenSet letterA) = some f :=
    Option.isSome_iff_exists.mp (by decide)
  have owed : (replay checkedStep secondNode (joinThenSet letterA)).all (fun f =>
      decide (f.owed 1 = [[textSet,letterK,letterA]])) = true := by decide
  have run := replayGuarded (checkPlainSound (keyHashSlot letterK)) done
  have still : ∀ syncWay forwardWay, MemberEvent.runmode syncWay forwardWay ∈ (joinThenSet letterA).reverse →
      strcasecmpEqual syncWay text1s = false := by
    intro syncWay forwardWay member
    simp [joinThenSet] at member
  refine ⟨_,f,run,?_⟩
  rw [(fanOutExact (secondStarted _) run).2.2.1 rfl still 1]
  simpa [done] using owed

/-- An argument with a zero byte inside reaches the group cut short. -/
theorem zeroByteCut : ∃ f, replay (fanStep knownNodes (keyHashSlot letterK)) secondNode
      (joinThenSet [97,0,98]) = some f ∧
    f.owed 1 = [[textSet,letterK,[97,0,98]]] ∧ (sentLog 1 f.log).map body = [[textSet,letterK,[97]]] := by
  obtain ⟨f,done⟩ : ∃ f, replay (fanStep knownNodes (keyHashSlot letterK)) secondNode
      (joinThenSet [97,0,98]) = some f := Option.isSome_iff_exists.mp (by decide)
  have seen : (replay (fanStep knownNodes (keyHashSlot letterK)) secondNode (joinThenSet [97,0,98])).all
      (fun f => decide (f.owed 1 = [[textSet,letterK,[97,0,98]]]) &&
        decide ((sentLog 1 f.log).map body = [[textSet,letterK,[97]]])) = true := by decide
  simp only [done,Option.all_some,Bool.and_eq_true,decide_eq_true_eq] at seen
  exact ⟨f,done,seen⟩

end HpuCache.FanOut
