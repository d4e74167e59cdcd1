import HpuCache.ProcessCommand

/-! What one command, cron iteration, packet or administration command can do to
the cache of a slot: a sequence of additions and flushes, each one reported as an
effect. All invariants of the cache are derived from this relation. -/
namespace HpuCache.SlotTrace
open ByteText KeySlot KeyedDict CommandCache ServerState GroupCommands NodeQuery ProcessCommand

def added (op : CacheOps) (st : SlotState) : SlotState :=
  { st with cachedOp := st.cachedOp.replace op, cacheOpSize := st.cacheOpSize + 1 }

def flushRecord (order : IterOrder CacheOps) (myself : NodeId) (st : SlotState) : Flush :=
  ⟨st.relatedIns.entries,(broadcastCommandInHotGroup order myself st).2,
    (broadcastCommandInHotGroup order myself st).1.cachedOp.entries⟩

/-- `group` is the membership that the flushes use, `own` says which entries the event may add. -/
inductive Trace (myself : NodeId) (group : Roster) (slot : Slot) (own : CacheOps → Prop) :
    SlotState → List Effect → SlotState → Prop where
  | done (st) : Trace myself group slot own st [] st
  | frame {a b effects c} (cached : b.cachedOp = a.cachedOp) (size : b.cacheOpSize = a.cacheOpSize)
      (rest : Trace myself group slot own b effects c) : Trace myself group slot own a effects c
  | add {a op effects c} (mine : own op) (rest : Trace myself group slot own (added op a) effects c) :
      Trace myself group slot own a (.cached slot op :: effects) c
  | flush {a effects c} (order : IterOrder CacheOps) (current : a.relatedIns = group)
      (rest : Trace myself group slot own (broadcastCommandInHotGroup order myself a).1 effects c) :
      Trace myself group slot own a (.flushed slot (flushRecord order myself a) :: effects) c

variable {myself : NodeId} {group : Roster} {slot : Slot} {own : CacheOps → Prop}

theorem Trace.idle {a b : SlotState} (cached : b.cachedOp = a.cachedOp)
    (size : b.cacheOpSize = a.cacheOpSize) : Trace myself group slot own a [] b :=
  .frame cached size (.done b)

theorem Trace.append {a b c : SlotState} {es fs : List Effect} (first : Trace myself group slot own a es b)
    (second : Trace myself group slot own b fs c) : Trace myself group slot own a (es ++ fs) c := by
  induction first with
  | done => exact second
  | frame cached size _ ih => exact .frame cached size (ih second)
  | add mine _ ih => exact .add mine (ih second)
  | flush order current _ ih => exact .flush order current (ih second)

theorem traceSlots {a b : SlotState} {es : List Effect} (trace : Trace myself group slot own a es b) :
    ∀ e ∈ es, e.slot = slot := by
  induction trace with
  | done => simp
  | frame _ _ _ ih => exact ih
  | add _ _ ih => simpa [Effect.slot] using ih
  | flush _ _ _ ih => simpa [Effect.slot] using ih

theorem addedBounded {a : SlotState} (op : CacheOps) (bounded : Bounded a) : Bounded (added op a) := by
  have grown := a.cachedOp.sizeReplaceLe op
  simp only [Bounded,added] at bounded ⊢
  omega

theorem traceBounded {a b : SlotState} {es : List Effect} (trace : Trace myself group slot own a es b)
    (bounded : Bounded a) : Bounded b := by
  induction trace with
  | done => exact bounded
  | frame cached size _ ih =>
    apply ih
    simpa only [Bounded,cached,size] using bounded
  | add _ _ ih => exact ih (addedBounded _ bounded)
  | flush order _ _ ih => exact ih (broadcastBounded order myself _ bounded)

/-- Entries held or sent come from the old dictionary or were added on the way, and what
is added is the event's own. -/
theorem traceOrigin {a b : SlotState} {es : List Effect} (trace : Trace myself group slot own a es b) :
    (∀ op ∈ b.cachedOp.entries, op ∈ a.cachedOp.entries ∨ Effect.cached slot op ∈ es) ∧
    (∀ op, Effect.cached slot op ∈ es → own op) ∧
    (∀ f, Effect.flushed slot f ∈ es → ∀ s ∈ f.sends,
      s.op ∈ a.cachedOp.entries ∨ Effect.cached slot s.op ∈ es) := by
  induction trace with
  | done => exact ⟨fun _ h => .inl h,by simp,by simp⟩
  | frame cached _ _ ih => rw [cached] at ih; exact ih
  | @add a op effects c mine _ ih =>
    have back : ∀ o, o ∈ (added op a).cachedOp.entries ∨ Effect.cached slot o ∈ effects →
        o ∈ a.cachedOp.entries ∨ Effect.cached slot o ∈ Effect.cached slot op :: effects := by
      rintro o (member | later)
      · rcases Dict.memReplace.mp member with rfl | ⟨old,_⟩
        · exact .inr List.mem_cons_self
        · exact .inl old
      · exact .inr (List.mem_cons_of_mem _ later)
    refine ⟨fun o h => back o (ih.1 o h),?_,?_⟩
    · intro o member
      rcases List.mem_cons.mp member with same | later
      · cases same; exact mine
      · exact ih.2.1 o later
    · intro f member s sent
      rcases List.mem_cons.mp member with same | later
      · cases same
      · exact back s.op (ih.2.2 f later s sent)
  | @flush a effects c order _ _ ih =>
    obtain ⟨d,n,shape,kept⟩ := broadcastFrame order myself a
    have back : ∀ o, o ∈ (broadcastCommandInHotGroup order myself a).1.cachedOp.entries ∨
        Effect.cached slot o ∈ effects → o ∈ a.cachedOp.entries ∨
        Effect.cached slot o ∈ .flushed slot (flushRecord order myself a) :: effects := by
      rintro o (member | later)
      · rw [shape] at member; exact .inl (kept o member)
      · exact .inr (List.mem_cons_of_mem _ later)
    refine ⟨fun o h => back o (ih.1 o h),?_,?_⟩
    · intro o member
      rcases List.mem_cons.mp member with same | later
      · cases same
      · exact ih.2.1 o later
    · intro f member s sent
      rcases List.mem_cons.mp member with same | later
      · cases same
        exact .inl (broadcastSends order myself a sent).1
      · exact back s.op (ih.2.2 f later s sent)

/-- The flags and the membership that no client command changes. -/
structure Kept (a b : SlotState) : Prop where
  related : b.relatedIns = a.relatedIns
  copied : b.isCopied = a.isCopied
  have_ : b.haveCopy = a.haveCopy
  copying : b.isCopying = a.isCopying
  synced : a.isSynced = true → b.isSynced = true

theorem Kept.refl (a : SlotState) : Kept a a := ⟨rfl,rfl,rfl,rfl,id⟩

theorem Kept.trans {a b c : SlotState} (first : Kept a b) (second : Kept b c) : Kept a c :=
  ⟨second.related.trans first.related,second.copied.trans first.copied,second.have_.trans first.have_,
    second.copying.trans first.copying,fun h => second.synced (first.synced h)⟩

/-- The event's own entries when it is the command `argv`. -/
def OwnOf (env : Env) (argv : List Bytes) (op : CacheOps) : Prop := cacheOps env.ustime argv = some op

section stages
variable {env : Env} {argv : List Bytes} {st b : SlotState} {es : List Effect}

theorem addWriteSpec (h : addWrite env slot argv st = some (b,es)) :
    ∃ op, cacheOps env.ustime argv = some op ∧ b = added op st ∧ es = [.cached slot op] := by
  simp only [addWrite,bind,Option.bind_eq_some_iff] at h
  obtain ⟨op,built,st',stored,last⟩ := h
  cases Option.some.inj last
  obtain ⟨op',built',rfl⟩ := addedEntry stored
  cases Option.some.inj (built.symm.trans built')
  exact ⟨op,built,rfl,rfl⟩

theorem addWriteTrace (myself : NodeId) (group : Roster) (h : addWrite env slot argv st = some (b,es)) :
    Trace myself group slot (OwnOf env argv) st es b ∧ Kept st b := by
  obtain ⟨op,built,rfl,rfl⟩ := addWriteSpec h
  exact ⟨.add built (.done _),⟨rfl,rfl,rfl,rfl,id⟩⟩

theorem flushSlotTrace (myself : NodeId) (slot : Slot) (own : CacheOps → Prop) (order : IterOrder CacheOps)
    (current : st.relatedIns = group) :
    Trace myself group slot own st (flushSlot order myself slot st).2 (flushSlot order myself slot st).1 ∧
    Kept st (flushSlot order myself slot st).1 := by
  obtain ⟨d,n,shape,_⟩ := broadcastFrame order myself st
  refine ⟨.flush order current (.done _),?_⟩
  simp only [flushSlot,shape]
  exact ⟨rfl,rfl,rfl,rfl,id⟩

theorem flushIfCountedTrace (myself : NodeId) (slot : Slot) (own : CacheOps → Prop) (order : IterOrder CacheOps)
    (current : st.relatedIns = group) :
    Trace myself group slot own st (flushIfCounted order myself slot st).2
      (flushIfCounted order myself slot st).1 ∧
    Kept st (flushIfCounted order myself slot st).1 := by
  unfold flushIfCounted
  split
  · exact flushSlotTrace myself slot own order current
  · exact ⟨.done st,.refl st⟩

theorem copyingCacheTrace (myself : NodeId) (group : Roster) {isWrite : Bool}
    (h : copyingCache env slot isWrite argv st = some (b,es)) :
    Trace myself group slot (OwnOf env argv) st es b ∧ Kept st b := by
  unfold copyingCache at h
  split at h
  · exact addWriteTrace myself group h
  · cases Option.some.inj h
    exact ⟨.done st,.refl st⟩

theorem oneTimeSyncTrace (env : Env) (myself : NodeId) (slot : Slot) (own : CacheOps → Prop)
    (current : st.relatedIns = group) :
    Trace myself group slot own st (oneTimeSync env myself slot st).2 (oneTimeSync env myself slot st).1 ∧
    Kept st (oneTimeSync env myself slot st).1 := by
  unfold oneTimeSync
  split
  · obtain ⟨trace,kept⟩ := flushIfCountedTrace myself slot own env.syncOrder current
    refine ⟨?_,⟨kept.related,kept.copied,kept.have_,kept.copying,fun _ => rfl⟩⟩
    rw [← List.append_nil (flushIfCounted env.syncOrder myself slot st).2]
    exact trace.append (.idle rfl rfl)
  · exact ⟨.done st,.refl st⟩

theorem copiedWriteTrace {cl : ClusterState} {isWrite : Bool} (current : st.relatedIns = group)
    (h : copiedWrite env cl slot isWrite argv st = some (b,es)) :
    Trace cl.myself group slot (OwnOf env argv) st es b ∧ Kept st b := by
  unfold copiedWrite at h
  split at h
  · simp only [bind,Option.bind_eq_some_iff] at h
    obtain ⟨⟨mid,first⟩,stored,h⟩ := h
    obtain ⟨trace,kept⟩ := addWriteTrace cl.myself group stored
    dsimp only at h
    split at h
    · cases Option.some.inj h
      exact ⟨trace,kept⟩
    · cases Option.some.inj h
      obtain ⟨later,keptLater⟩ := flushSlotTrace cl.myself slot (OwnOf env argv)
        env.writeOrder (kept.related.trans current)
      exact ⟨trace.append later,kept.trans keptLater⟩
  · cases Option.some.inj h
    exact ⟨.done st,.refl st⟩

end stages

/-- A part of the cluster block that works on one slot. -/
structure BlockSpec (env : Env) (cl : ClusterState) (argv : List Bytes) (slot : Slot)
    (cluster : ClusterState) (effects : List Effect) : Prop where
  shape : ∃ st, cluster = cl.setSlot slot st ∧ Kept (cl.slotStatus slot) st ∧
    Trace cl.myself (cl.slotStatus slot).relatedIns slot (OwnOf env argv) (cl.slotStatus slot) effects st

theorem serveOrRedirectSpec {env cl c cmd argv q slot st effects}
    (trace : Trace cl.myself (cl.slotStatus slot).relatedIns slot (OwnOf env argv) (cl.slotStatus slot) effects st)
    (kept : Kept (cl.slotStatus slot) st) :
    BlockSpec env cl argv slot (serveOrRedirect env cl c cmd argv q slot st effects).cluster
      (serveOrRedirect env cl c cmd argv q slot st effects).effects := by
  have counted : ∀ {b : SlotState} {es : List Effect},
      Trace cl.myself (cl.slotStatus slot).relatedIns slot (OwnOf env argv) (cl.slotStatus slot) es b →
      Kept (cl.slotStatus slot) b →
      BlockSpec env cl argv slot (cl.setSlot slot { b with dealedOps := b.dealedOps + 1 }) es := by
    intro b es t k
    refine ⟨_,rfl,⟨k.related,k.copied,k.have_,k.copying,k.synced⟩,?_⟩
    rw [← List.append_nil es]
    exact t.append (.idle rfl rfl)
  unfold serveOrRedirect
  split
  · split
    · exact ⟨_,rfl,kept,trace⟩
    · rename_i b more served
      obtain ⟨later,keptLater⟩ := copiedWriteTrace kept.related served
      exact counted (trace.append later) (kept.trans keptLater)
  · split
    · exact ⟨_,rfl,kept,trace⟩
    · exact counted trace kept

theorem hotSlotBranchesSpec (env cl c cmd argv q slot) :
    BlockSpec env cl argv slot (hotSlotBranches env cl c cmd argv q slot).cluster
      (hotSlotBranches env cl c cmd argv q slot).effects := by
  unfold hotSlotBranches
  split
  · exact ⟨cl.slotStatus slot,(setSlotIdle cl slot).symm,.refl _,.done _⟩
  · rename_i st first cachedNow
    obtain ⟨trace,kept⟩ := copyingCacheTrace cl.myself (cl.slotStatus slot).relatedIns cachedNow
    obtain ⟨later,keptLater⟩ := oneTimeSyncTrace env cl.myself slot (OwnOf env argv) kept.related
    have all := trace.append later
    have keptAll := kept.trans keptLater
    dsimp only
    split
    · exact ⟨_,rfl,keptAll,all⟩
    · exact ⟨_,rfl,keptAll,all⟩
    · exact serveOrRedirectSpec all keptAll
    · exact serveOrRedirectSpec all keptAll

theorem callOrRefuseSame (env : Env) (cl : ClusterState) (c : Client) (cmd : RedisCommand)
    (argv : List Bytes) (effects : List Effect) (touched : Option HashSlot) :
    (callOrRefuse env cl c cmd argv effects touched).cluster = cl ∧
    (callOrRefuse env cl c cmd argv effects touched).effects = effects ∧
    (callOrRefuse env cl c cmd argv effects touched).touched = touched := by
  unfold callOrRefuse
  split <;> exact ⟨rfl,rfl,rfl⟩

theorem afterBlockSame (env : Env) (cmd : RedisCommand) (argv : List Bytes) (selected : HashSlot)
    (block : Block) :
    (afterBlock env cmd argv selected block).cluster = block.cluster ∧
    (afterBlock env cmd argv selected block).effects = block.effects ∧
    (afterBlock env cmd argv selected block).touched = some selected := by
  unfold afterBlock
  split
  · exact ⟨rfl,rfl,rfl⟩
  · exact callOrRefuseSame env block.cluster block.client cmd argv block.effects (some selected)

inductive Touches (env : Env) (cl : ClusterState) (argv : List Bytes) (out : Outcome) : Prop where
  | nothing (cluster : out.cluster = cl) (effects : out.effects = [])
  | slot (s : Slot) (selected : ∃ h, out.touched = some h ∧ h.slot? = some s)
      (spec : BlockSpec env cl argv s out.cluster out.effects)

theorem clusterBlockTouches (env cl c cmd argv) :
    Touches env cl argv (clusterBlock env cl c cmd argv) := by
  unfold clusterBlock
  split
  · exact .nothing rfl rfl
  · rename_i q asked
    split
    · exact .nothing rfl rfl
    · rename_i s inside
      have spec := hotSlotBranchesSpec env cl c cmd argv q s
      obtain ⟨cluster,effects,touched⟩ := afterBlockSame env cmd argv (Query.variable env q)
        (hotSlotBranches env cl c cmd argv q s)
      refine .slot s ⟨_,touched,inside⟩ ?_
      rw [cluster,effects]
      exact spec

theorem dispatchTouches (env cl c argv) : Touches env cl argv (dispatch env cl c argv) := by
  unfold dispatch
  split
  · exact .nothing rfl rfl
  · rename_i cmd _
    split
    · exact .nothing rfl rfl
    split
    · exact .nothing rfl rfl
    split
    · exact .nothing rfl rfl
    split
    · exact clusterBlockTouches env cl c cmd argv
    · obtain ⟨cluster,effects,_⟩ := callOrRefuseSame env cl c cmd argv [] none
      exact .nothing cluster effects

theorem syncSkipsBlock {env c cmd argv} (sync : c.sync = true) : clusterGuard env c cmd argv = false := by
  simp [clusterGuard,sync]

theorem dispatchSync (env cl argv) {c} (sync : c.sync = true) :
    (dispatch env cl c argv).cluster = cl ∧ (dispatch env cl c argv).effects = [] ∧
    (dispatch env cl c argv).touched = none := by
  unfold dispatch
  split
  · exact ⟨rfl,rfl,rfl⟩
  · rename_i cmd _
    split
    · exact ⟨rfl,rfl,rfl⟩
    split
    · exact ⟨rfl,rfl,rfl⟩
    split
    · exact ⟨rfl,rfl,rfl⟩
    rw [syncSkipsBlock sync]
    exact callOrRefuseSame env cl c cmd argv [] none

theorem processTouches (env cl c argv) : Touches env cl argv (processCommand env cl c argv) := by
  unfold processCommand
  split
  · exact .nothing rfl rfl
  split
  · exact dispatchTouches env cl c argv
  · exact .nothing rfl rfl
  · exact followWay (.nothing rfl rfl) (.nothing rfl rfl)
  · rename_i inner _
    obtain ⟨cluster,effects,_⟩ := dispatchSync env cl inner (c := { c with sync := true }) rfl
    exact followWay (.nothing cluster effects) (.nothing rfl rfl)

theorem magicNotPlain {cachedOp : Slot → OpDict} {argv : List Bytes}
    (magic : strncmpEqual (argv.headD []) magicWord 6 = true) : magicBranch cachedOp argv ≠ .plain := by
  intro plain
  cases argv with
  | nil => simp [magicBranch] at plain
  | cons word rest =>
    simp only [magicBranch,List.headD_cons] at plain magic
    rw [if_pos magic] at plain
    split at plain
    · split at plain
      · split at plain <;> contradiction
      · contradiction
    · contradiction

theorem magicInner {cachedOp : Slot → OpDict} {argv inner : List Bytes}
    (word : magicBranch cachedOp argv = .inner inner) : inner = argv.drop 2 := by
  cases argv with
  | nil => simp [magicBranch] at word
  | cons head rest =>
    simp only [magicBranch] at word
    split at word <;> try contradiction
    split at word <;> try contradiction
    split at word
    · split at word
      · contradiction
      · exact (Magic.inner.inj word).symm
    · exact (Magic.inner.inj word).symm

/-- No echo: what arrives under the magic word changes no slot and sends nothing. -/
theorem forwardedNoEcho {env cl c argv} (magic : strncmpEqual (argv.headD []) magicWord 6 = true) :
    (processCommand env cl c argv).cluster = cl ∧ (processCommand env cl c argv).effects = [] := by
  unfold processCommand
  split
  · exact ⟨rfl,rfl⟩
  split
  · rename_i plain
    exact absurd plain (magicNotPlain magic)
  · exact ⟨rfl,rfl⟩
  · exact @followWay (fun out => out.cluster = cl ∧ out.effects = []) env cl c _ ⟨rfl,rfl⟩ ⟨rfl,rfl⟩
  · rename_i inner _
    obtain ⟨cluster,effects,_⟩ := dispatchSync env cl inner (c := { c with sync := true }) rfl
    exact @followWay (fun out => out.cluster = cl ∧ out.effects = []) env cl c _ ⟨cluster,effects⟩ ⟨rfl,rfl⟩

theorem traceAt {cl : ClusterState} {own : CacheOps → Prop} {t : Slot} {st : SlotState}
    {es : List Effect}
    (trace : Trace cl.myself (cl.slotStatus t).relatedIns t own (cl.slotStatus t) es st) (s : Slot) :
    Trace cl.myself (cl.slotStatus s).relatedIns s own (cl.slotStatus s) (es.filter (fun e => e.slot = s))
      ((cl.setSlot t st).slotStatus s) := by
  have slots := traceSlots trace
  by_cases same : s = t
  · subst same
    rw [setSlotSame,List.filter_eq_self.mpr (by simpa using slots)]
    exact trace
  · have none : es.filter (fun e => e.slot = s) = [] := by
      apply List.filter_eq_nil_iff.mpr
      intro e member
      rw [slots e member]
      simpa using fun h => same h.symm
    rw [setSlotOther cl st same,none]
    exact .done _

theorem keptAt {cl : ClusterState} {t : Slot} {st : SlotState} (kept : Kept (cl.slotStatus t) st)
    (s : Slot) : Kept (cl.slotStatus s) ((cl.setSlot t st).slotStatus s) := by
  by_cases same : s = t
  · subst same
    rwa [setSlotSame]
  · rw [setSlotOther cl st same]
    exact .refl _

/-- The effects of one slot, and its trace, whatever the command did. -/
theorem processTrace (env cl c argv) (s : Slot) :
    Trace cl.myself (cl.slotStatus s).relatedIns s (OwnOf env argv) (cl.slotStatus s)
      ((processCommand env cl c argv).effects.filter (fun e => e.slot = s))
      ((processCommand env cl c argv).cluster.slotStatus s) ∧
    Kept (cl.slotStatus s) ((processCommand env cl c argv).cluster.slotStatus s) := by
  cases processTouches env cl c argv with
  | nothing cluster effects =>
    rw [cluster,effects]
    exact ⟨.done _,.refl _⟩
  | slot t _ spec =>
    obtain ⟨st,shape,kept,trace⟩ := spec.shape
    rw [shape]
    exact ⟨traceAt trace s,keptAt kept s⟩

theorem processFrame (env cl c argv) :
    ∃ status, (processCommand env cl c argv).cluster = { cl with slotStatus := status } := by
  cases processTouches env cl c argv with
  | nothing cluster _ => exact ⟨cl.slotStatus,cluster⟩
  | slot t _ spec =>
    obtain ⟨st,shape,_,_⟩ := spec.shape
    exact ⟨_,shape⟩

end HpuCache.SlotTrace
