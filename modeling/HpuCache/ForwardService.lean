import HpuCache.CommandPath
import HpuCache.CommandTable
import HpuCache.GroupAgreement

/-! The owner of a hot slot sends clients to the members of its group. Whether a
member serves such a client is decided by its own flag, which only the packets of
other nodes set. -/
namespace HpuCache.ForwardService
open ByteText KeySlot KeyedDict CommandCache ServerState GroupCommands NodeQuery ProcessCommand
open SlotTrace CommandPath CommandTable MemberStep GroupAgreement EventRun FifoLinks

/-- The slot has one owner and is neither migrating nor importing. -/
structure Routed (owner : NodeId) (s : Slot) (cl : ClusterState) : Prop where
  slots : cl.slots s = some owner
  migrating : cl.migratingSlotsTo s = none
  importing : cl.importingSlotsFrom s = none

def replicaRead (owner : NodeId) (cl : ClusterState) (c : Client) (cmd : RedisCommand) : Bool :=
  c.readonly && !isWriteCommand c cmd && cl.isSlave && decide (cl.slaveof = some owner)

theorem routedQuery {env cl c cmd argv q owner s} (routed : Routed owner s cl)
    (asked : getNodeByQuery env cl c cmd argv = some q) (stored : q.hashslot = some s) :
    q = if replicaRead owner cl c cmd then ⟨some cl.myself,some s,none⟩
      else if owner ≠ cl.myself then ⟨some owner,some s,some .moved⟩ else ⟨some owner,some s,none⟩ := by
  obtain ⟨scan,_,sound,own,shape,_⟩ := storedSlot asked stored
  obtain ⟨_,served,migrating,importing⟩ := sound
  rw [own] at served migrating importing
  have node : scan.node = owner := Option.some.inj (served.symm.trans routed.slots)
  have notMigrating : scan.migratingSlot = false := by
    cases m : scan.migratingSlot with
    | false => rfl
    | true => exact absurd (migrating m).2 (by simp [routed.migrating])
  have notImporting : scan.importingSlot = false := by
    cases m : scan.importingSlot with
    | false => rfl
    | true => exact absurd (importing m) (by simp [routed.importing])
  rw [shape,routeSlot]
  simp only [notMigrating,notImporting,Bool.or_self,Bool.false_and,Bool.false_eq_true,if_false,node,own]
  rfl

theorem getForwardAimMember {env cl related node} (h : getForwardAim env cl related = some node) :
    node ∈ related.entries ∨ node = cl.myself := by
  have drawn : ∀ draws other, drawOther related cl.myself draws = some other → other ∈ related.entries := by
    intro draws
    induction draws with
    | nil => intro other h; contradiction
    | cons r rest ih =>
      intro other h
      simp only [drawOther] at h
      split at h <;> try contradiction
      rename_i found
      split at h
      · exact ih other h
      · cases Option.some.inj h
        exact List.mem_of_getElem? found
  unfold getForwardAim at h
  split at h <;> try contradiction
  simp only [bind,Option.bind_eq_some_iff] at h
  obtain ⟨first,found,h⟩ := h
  split at h
  · obtain ⟨other,again,h⟩ := Option.bind_eq_some_iff.mp h
    split at h
    · cases Option.some.inj h
      exact .inr rfl
    · cases Option.some.inj h
      exact .inl (drawn _ _ again)
  · cases Option.some.inj h
    exact .inl (List.mem_of_getElem? found)

theorem ownerForwards {env cl c argv s x} (routed : Routed cl.myself s cl)
    (touched : (processCommand env cl c argv).touched = some (.stored s))
    (redirected : (processCommand env cl c argv).exit = .redirected (.moved s.val x)) :
    x ∈ (cl.slotStatus s).relatedIns.entries ∧ x ≠ cl.myself := by
  obtain ⟨cmd,q,_,_,_,asked,stored,same⟩ := storedWay touched
  rw [same] at redirected
  have stop := afterBlockRedirected redirected
  have local_ : q.node = some cl.myself := by
    rw [routedQuery routed asked stored]
    split
    · rfl
    · simp
  have serves : ∀ c' st effects,
      (serveOrRedirect env cl c' cmd argv q s st effects).stop ≠ some (.redirected (.moved s.val x)) := by
    intro c' st effects
    unfold serveOrRedirect
    split
    · split <;> simp
    · rw [if_neg (by simp [local_])]
      simp
  unfold hotSlotBranches at stop
  split at stop
  · simp at stop
  · rename_i st cachedNow first
    have cached := (copyingCacheTrace cl.myself (cl.slotStatus s).relatedIns first).2.related
    have related : (oneTimeSync env cl.myself s st).1.relatedIns = (cl.slotStatus s).relatedIns :=
      (oneTimeSyncTrace env cl.myself s (fun _ => False) cached).2.related.trans cached
    dsimp only at stop
    split at stop
    · simp at stop
    · rename_i node aim
      have own : node = x := by simpa using stop
      subst own
      unfold forwardBranch at aim
      split at aim <;> try contradiction
      split at aim
      · contradiction
      · rename_i chosen drawn
        split at aim
        · contradiction
        · rename_i other
          cases Forward.away.inj aim
          rw [← related]
          exact ⟨(getForwardAimMember drawn).resolve_right other,other⟩
    · exact absurd stop (serves _ _ _)
    · exact absurd stop (serves _ _ _)

/-- What decides whether a member serves a command on a slot it does not own. -/
def servedAt (owner : NodeId) (copied : Bool) (cl : ClusterState) (c : Client) (cmd : RedisCommand)
    (argv : List Bytes) : Bool :=
  if copied then !(isWriteCommand c cmd && cl.isSync && decide (argv.length < 2))
  else replicaRead owner cl c cmd

def Block.goesOn (block : Block) : Bool :=
  match block.stop with
  | some exit => Exit.served exit
  | none => true

theorem afterBlockServed (env : Env) (cmd : RedisCommand) (argv : List Bytes) (selected : HashSlot)
    (block : Block) :
    Exit.served (afterBlock env cmd argv selected block).exit = Block.goesOn block := by
  unfold afterBlock Block.goesOn
  cases block.stop with
  | some exit => rfl
  | none => exact callOrRefuseServed ..

section serve
variable {env : Env} {cl : ClusterState} {c : Client} {cmd : RedisCommand} {argv : List Bytes}
  {q : Query} {s : Slot} {st : SlotState} {effects : List Effect}

theorem copyGoesOn (copy : (st.isCopied && (isCopyInstance cl s || (isOwner cl s && isNoForward c s))) = true) :
    Block.goesOn (serveOrRedirect env cl c cmd argv q s st effects) =
      (copiedWrite env cl s (isWriteCommand c cmd) argv st).isSome := by
  unfold serveOrRedirect
  rw [if_pos copy]
  cases copiedWrite env cl s (isWriteCommand c cmd) argv st <;> rfl

theorem routedGoesOn
    (plain : (st.isCopied && (isCopyInstance cl s || (isOwner cl s && isNoForward c s))) = false) :
    Block.goesOn (serveOrRedirect env cl c cmd argv q s st effects) = decide (q.node = some cl.myself) := by
  unfold serveOrRedirect
  rw [plain,if_neg (by decide)]
  by_cases here : q.node = some cl.myself
  · simp [here,Block.goesOn]
  · rw [if_pos here]
    unfold Block.goesOn
    cases clusterRedirectClient q.node s.val q.code <;> simp [Exit.served,here]

end serve

theorem copiedWriteSome {env cl s isWrite argv st} :
    (copiedWrite env cl s isWrite argv st).isSome = !(isWrite && cl.isSync && decide (argv.length < 2)) := by
  unfold copiedWrite
  cases synced : isWrite && cl.isSync with
  | false => simp
  | true =>
    by_cases long : 2 ≤ argv.length
    · obtain ⟨op,built⟩ := cacheOpsOf env.ustime long
      have short : ¬ argv.length < 2 := by omega
      simp only [addWrite,addCmdToCache,built,bind,Option.bind,if_true,short]
      split <;> rfl
    · have short : argv.length < 2 := by omega
      simp [addWrite,cacheOps,long,short]

theorem memberServes {env cl c argv s owner cmd} (routed : Routed owner s cl) (other : owner ≠ cl.myself)
    (member : (cl.slotStatus s).relatedIns.has cl.myself = true)
    (original : (cl.slotStatus s).haveCopy = false)
    (touched : (processCommand env cl c argv).touched = some (.stored s))
    (known : env.commands (argv.headD []) = some cmd) :
    Exit.served (processCommand env cl c argv).exit =
      servedAt owner (cl.slotStatus s).isCopied cl c cmd argv := by
  obtain ⟨cmd',q,_,accepted,_,asked,stored,same⟩ := storedWay touched
  cases Option.some.inj (known.symm.trans accepted.known)
  have foreign : isOwner cl s = false := by simpa [isOwner,routed.slots] using other
  have copyInstance : isCopyInstance cl s = true := by simp [isCopyInstance,member,foreign]
  have block : hotSlotBranches env cl c cmd argv q s =
      serveOrRedirect env cl c cmd argv q s (cl.slotStatus s) [] := by
    simp [hotSlotBranches,copyingCache,oneTimeSync,forwardBranch,original,foreign]
  rw [same,afterBlockServed,block,servedAt]
  cases copied : (cl.slotStatus s).isCopied with
  | true =>
    rw [copyGoesOn (by simp [copied,copyInstance]),copiedWriteSome,if_pos rfl]
  | false =>
    rw [routedGoesOn (by simp [copied]),if_neg (by decide),routedQuery routed asked stored]
    cases replicaRead owner cl c cmd <;> simp [other]

/-- Whether a packet of another node has marked the slot as copied since the last own departure. -/
def receivedAdd (x : NodeId) (s : Slot) : List Event → Bool
  | [] => false
  | .act y (.hotgroup _ word t) :: past =>
    if y = x ∧ t = s ∧ groupWord word = .del then false else receivedAdd x s past
  | .deliver _ y msg :: past =>
    if y = x ∧ msg.slot.toNat = s.val ∧ msg.status = 1 then true else receivedAdd x s past
  | _ :: past => receivedAdd x s past

/-- SETSLOT COPYING and FINCOPY are given to the owner only. -/
def CopyAt (owner : NodeId) (s : Slot) (past : List Event) : Prop :=
  ∀ x finished, Event.act x (.setslot finished s) ∈ past → x = owner

section history
variable {nodes : List NodeId} {start net : Net} {past : List Event}

theorem runTables (run : Reach (Takes (step nodes)) start past net) (x : NodeId) :
    SameTables (start.node x) (net.node x) := by
  have trans : ∀ {a b d : ClusterState}, SameTables a b → SameTables b d → SameTables a d := by
    intro a b d first second
    exact ⟨second.myself.trans first.myself,second.stateOk.trans first.stateOk,
      second.slots.trans first.slots,second.migrating.trans first.migrating,
      second.importing.trans first.importing,second.isSlave.trans first.isSlave,
      second.slaveof.trans first.slaveof⟩
  induction run with
  | start => exact sameTablesOf ⟨_,_,_,_,rfl⟩
  | @next past net event next _ taken before =>
    rcases stepCases taken with ⟨y,e,r,rfl,_,_,ok,rfl⟩ | ⟨y,z,msg,rest,r,rfl,_,ok,rfl⟩
    · by_cases same : x = y
      · subst same
        rw [actedSame]
        exact trans before (memberStepSpec ok).tables
      · rwa [actedOther nodes net r same]
    · by_cases same : x = z
      · subst same
        rw [deliveredSame]
        exact trans before (memberStepSpec ok).tables
      · rwa [deliveredOther net y rest r same]

theorem lastAddKnown (run : Reach (Takes (step nodes)) start past net) {x : NodeId} {s : Slot}
    (added : lastAdd x s past = true) : x ∈ nodes := by
  induction run with
  | start => contradiction
  | next _ taken ih =>
    rcases stepCases taken with ⟨y,e,r,rfl,known,own,_,_⟩ | ⟨y,z,msg,rest,r,rfl,_,_,_⟩
    · rw [lastAddAct x y s e _ own] at added
      by_cases same : x = y
      · exact same ▸ known
      · rw [memberAfterOther s _ own same] at added
        exact ih added
    · rw [lastAddDeliver] at added
      exact ih added

theorem flagFields {st : SlotState} {f : Flags} (h : flagsOf st = f) :
    st.isCopied = f.copied ∧ st.haveCopy = f.haveCopy := by
  subst h
  exact ⟨rfl,rfl⟩

/-- At a node that is not the owner the copied flag is what the packets made it. -/
theorem memberFlags {owner x : NodeId} {s : Slot} (fresh : Fresh nodes start)
    (run : Reach (Takes (step nodes)) start past net) (atOwner : CopyAt owner s past)
    (known : x ∈ nodes) (other : x ≠ owner) :
    ((net.node x).slotStatus s).isCopied = receivedAdd x s past ∧
    ((net.node x).slotStatus s).haveCopy = false := by
  induction run with
  | start => rw [fresh.zeroed x known]; exact ⟨rfl,rfl⟩
  | @next past net event next _ taken ih =>
    have before := ih (fun y finished member => atOwner y finished (List.mem_cons_of_mem _ member))
    rcases stepCases taken with ⟨y,e,r,rfl,_,own,ok,rfl⟩ | ⟨y,z,msg,rest,r,rfl,_,ok,rfl⟩
    · have spec := memberStepSpec ok
      by_cases same : x = y
      · subst same
        obtain ⟨copied,haveCopy⟩ := flagFields (spec.flags s)
        rw [actedSame,copied,haveCopy]
        cases e with
        | packet msg => contradiction
        | setslot finished t =>
          have apart : t ≠ s := fun here => other (atOwner x finished (here ▸ List.mem_cons_self))
          simpa [flagsAfter,apart,receivedAdd,flagsOf] using before
        | hotgroup order word t =>
          simp only [flagsAfter,receivedAdd,flagsOf,true_and]
          split
          · exact ⟨rfl,before.2⟩
          · exact before
        | _ => exact before
      · rw [actedOther nodes net r same]
        have idle : receivedAdd x s (.act y e :: past) = receivedAdd x s past := by
          cases e with
          | hotgroup order word t => exact if_neg (fun h => same h.1.symm)
          | _ => rfl
        rwa [idle]
    · have spec := memberStepSpec ok
      rw [receivedAdd]
      by_cases same : x = z
      · subst same
        obtain ⟨copied,haveCopy⟩ := flagFields (spec.flags s)
        rw [deliveredSame,copied,haveCopy]
        simp only [flagsAfter,flagsOf,true_and]
        split
        · exact ⟨rfl,before.2⟩
        · exact before
      · rw [deliveredOther net y rest r same,if_neg (fun h => same h.1.symm)]
        exact before

end history

theorem answerExit {exit : Exit} {r : Redirection} (h : Exit.answer exit = some r) : exit = .redirected r := by
  cases exit <;> simp_all [Exit.answer]

/-- A client that the owner sends to a member is served there exactly when a packet of
another node has reached the member since it last left the group (and a cached write has
an argument to be cached under), or the member may answer the read as a replica. -/
theorem forwardedServed {nodes : List NodeId} {start net : Net} {past : List Event} {owner x : NodeId}
    {s : Slot} {env env' : Env} {c c' : Client} {argv : List Bytes} {cmd : RedisCommand}
    (fresh : Fresh nodes start) (routed : ∀ y ∈ nodes, Routed owner s (start.node y))
    (run : Reach (Takes (step nodes)) start past net) (quiet : Quiet net.links)
    (atOwner : CopyAt owner s past) (ownerKnown : owner ∈ nodes)
    (asked : (processCommand env (net.node owner) c argv).touched = some (.stored s))
    (redirected : (processCommand env (net.node owner) c argv).exit = .redirected (.moved s.val x))
    (arrived : (processCommand env' (net.node x) c' argv).touched = some (.stored s))
    (known : env'.commands (argv.headD []) = some cmd) :
    Exit.served (processCommand env' (net.node x) c' argv).exit = true ↔
      servedAt owner (receivedAdd x s past) (net.node x) c' cmd argv = true := by
  have agrees := runAgrees fresh run
  have still : ∀ y ∈ nodes, Routed owner s (net.node y) := by
    intro y member
    have tables := runTables run y
    obtain ⟨slots,migrating,importing⟩ := routed y member
    exact ⟨by rw [tables.slots,slots],by rw [tables.migrating,migrating],by rw [tables.importing,importing]⟩
  have named := agrees.named owner ownerKnown
  have home := still owner ownerKnown
  have chosen := ownerForwards (s := s) (by rw [named]; exact home) asked redirected
  rw [named] at chosen
  have added : lastAdd x s past = true := by
    have view := agrees.view x owner ownerKnown s
    rw [quiet x owner,settled] at view
    rw [← view,inGroup,Dict.hasIff]
    exact ⟨x,chosen.1,rfl⟩
  have member := lastAddKnown run added
  have self : ((net.node x).slotStatus s).relatedIns.has (net.node x).myself = true := by
    have view := agrees.view x x member s
    rw [quiet x x,settled] at view
    rw [agrees.named x member]
    exact view.trans added
  obtain ⟨copied,original⟩ := memberFlags fresh run atOwner member chosen.2
  have apart : owner ≠ (net.node x).myself := by
    rw [agrees.named x member]
    exact chosen.2.symm
  rw [memberServes (still x member) apart self original arrived known,copied]

def hot : Slot := keyHashSlot letterK

theorem routedInitial (owner : NodeId) (s : Slot) (x : NodeId) :
    Routed owner s ((initialNet owner).node x) := ⟨rfl,rfl,rfl⟩

def bothMembers : List Event :=
  [.act 1 (.hotgroup .asStored textAdd hot),.deliver 1 2 (clusterBroadcastOwnAsHotInstance 1 hot 1),
    .act 2 (.hotgroup .asStored textAdd hot),.deliver 2 1 (clusterBroadcastOwnAsHotInstance 2 hot 1),
    .act 1 (.setslot false hot),.act 1 (.setslot true hot)]

def getK (net : Net) (x : NodeId) (draw : Nat) : Outcome :=
  processCommand { calm (clock 0) with draws := [draw] } (net.node x) .fresh [textGet,letterK]

theorem forwardedServedShown : ∃ net, replay (step pair) (initialNet 1) bothMembers = some net ∧
    (getK net 1 1).exit = .redirected (.moved hot.val 2) ∧ Exit.served (getK net 2 0).exit = true := by
  obtain ⟨net,done⟩ : ∃ net, replay (step pair) (initialNet 1) bothMembers = some net :=
    Option.isSome_iff_exists.mp (by decide)
  have seen : (replay (step pair) (initialNet 1) bothMembers).all (fun net =>
      decide (∀ x ∈ pair, ∀ y ∈ pair, net.links x y = []) &&
      decide ((getK net 1 1).touched = some (.stored hot)) &&
      decide (Exit.answer (getK net 1 1).exit = some (.moved hot.val 2)) &&
      decide ((getK net 2 0).touched = some (.stored hot))) = true := by decide
  simp only [done,Option.all_some,Bool.and_eq_true,decide_eq_true_eq] at seen
  obtain ⟨⟨⟨empty,asked⟩,there⟩,arrived⟩ := seen
  have run := replayReach done
  have quiet := quietOnNodes (runAgrees (initialFresh pair 1) run) empty
  have atOwner : CopyAt 1 hot bothMembers.reverse := by
    intro x finished member
    have named : (x = 1 ∧ finished = true) ∨ (x = 1 ∧ finished = false) := by
      simpa [bothMembers] using member
    rcases named with ⟨same,_⟩ | ⟨same,_⟩ <;> exact same
  refine ⟨net,done,answerExit there,?_⟩
  exact (forwardedServed (initialFresh pair 1) (fun y _ => routedInitial 1 hot y) run quiet atOwner
    (by decide) asked (answerExit there) arrived rfl).mpr rfl

def loneMember : List Event :=
  [.act 2 (.hotgroup .asStored textAdd hot),.deliver 2 1 (clusterBroadcastOwnAsHotInstance 2 hot 1),
    .act 1 (.setslot false hot),.act 1 (.setslot true hot)]

/-- The owner sends the reader to the member, and the member sends it back. -/
theorem redirectionCycle : ∃ net, replay (step pair) (initialNet 1) loneMember = some net ∧
    Quiet net.links ∧
    (getK net 1 0).exit = .redirected (.moved hot.val 2) ∧
    (getK net 2 0).exit = .redirected (.moved hot.val 1) := by
  obtain ⟨net,done⟩ : ∃ net, replay (step pair) (initialNet 1) loneMember = some net :=
    Option.isSome_iff_exists.mp (by decide)
  have seen : (replay (step pair) (initialNet 1) loneMember).all (fun net =>
      decide (∀ x ∈ pair, ∀ y ∈ pair, net.links x y = []) &&
      decide (Exit.answer (getK net 1 0).exit = some (.moved hot.val 2)) &&
      decide (Exit.answer (getK net 2 0).exit = some (.moved hot.val 1))) = true := by decide
  simp only [done,Option.all_some,Bool.and_eq_true,decide_eq_true_eq] at seen
  obtain ⟨⟨empty,there⟩,back⟩ := seen
  exact ⟨net,done,quietOnNodes (runAgrees (initialFresh pair 1) (replayReach done)) empty,
    answerExit there,answerExit back⟩

end HpuCache.ForwardService
