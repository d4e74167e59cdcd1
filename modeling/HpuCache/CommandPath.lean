import HpuCache.SlotTrace

/-! The ways through `processCommand`. A command is answered before the cluster
block, goes past the block, or is routed by it; in the last case it is the plain
command of the client and the outcome is what the block made of one query. -/
namespace HpuCache.CommandPath
open ByteText KeySlot KeyedDict CommandCache ServerState GroupCommands NodeQuery ProcessCommand SlotTrace

/-- The command that the checks see, and the client flags they see it with. -/
inductive Arrives (cachedOp : Slot → OpDict) (c : Client) (argv : List Bytes) :
    Client → List Bytes → Prop where
  | plain (word : magicBranch cachedOp argv = .plain) : Arrives cachedOp c argv c argv
  | wrapped {inner} (word : magicBranch cachedOp argv = .inner inner) :
      Arrives cachedOp c argv { c with sync := true } inner

/-- The checks between the magic word and the cluster block. -/
structure Accepted (env : Env) (c : Client) (cmd : RedisCommand) (argv : List Bytes) : Prop where
  known : env.commands (argv.headD []) = some cmd
  arity : wrongArity cmd argv = false
  auth : (!env.defaultUserOpen && !c.authenticated && !cmd.noAuth) = false
  acl : env.aclCheckAllPerm c cmd argv = true

def Exit.early : Exit → Bool
  | .quit => true
  | .dropped => true
  | .faulted .argvOutOfRange => true
  | .faulted .nullCluster => true
  | .rejected _ => true
  | _ => false

inductive Way (env : Env) (cl : ClusterState) (c : Client) (argv : List Bytes) : Outcome → Prop where
  | early {out} (cluster : out.cluster = cl) (effects : out.effects = []) (touched : out.touched = none)
      (exit : Exit.early out.exit = true) : Way env cl c argv out
  | bypass {c' argv' cmd} (arrives : Arrives (fun s => (cl.slotStatus s).cachedOp) c argv c' argv')
      (accepted : Accepted env c' cmd argv') (guard : clusterGuard env c' cmd argv' = false) :
      Way env cl c argv (callOrRefuse env cl c' cmd argv' [] none)
  | routed {cmd} (word : magicBranch (fun s => (cl.slotStatus s).cachedOp) argv = .plain)
      (accepted : Accepted env c cmd argv) (guard : clusterGuard env c cmd argv = true) :
      Way env cl c argv (clusterBlock env cl c cmd argv)

theorem processWay (env : Env) (cl : ClusterState) (c : Client) (argv : List Bytes) :
    Way env cl c argv (processCommand env cl c argv) := by
  have passed : ∀ c' argv', Arrives (fun s => (cl.slotStatus s).cachedOp) c argv c' argv' →
      Way env cl c argv (dispatch env cl c' argv') := by
    intro c' argv' arrives
    unfold dispatch
    split
    · exact .early rfl rfl rfl rfl
    · rename_i cmd known
      split
      · exact .early rfl rfl rfl rfl
      rename_i arity
      split
      · exact .early rfl rfl rfl rfl
      rename_i auth
      split
      · exact .early rfl rfl rfl rfl
      rename_i acl
      have accepted : Accepted env c' cmd argv' :=
        ⟨known,by simpa using arity,by simpa using auth,by simpa using acl⟩
      split
      · rename_i guard
        cases arrives with
        | plain word => exact .routed word accepted guard
        | wrapped word =>
          rw [syncSkipsBlock rfl] at guard
          contradiction
      · rename_i guard
        exact .bypass arrives accepted (by simpa using guard)
  unfold processCommand
  split
  · exact .early rfl rfl rfl rfl
  split
  · rename_i word
    exact passed c argv (.plain word)
  · exact .early rfl rfl rfl rfl
  · exact followWay (.early rfl rfl rfl rfl) (.early rfl rfl rfl rfl)
  · rename_i inner word
    exact followWay (passed _ inner (.wrapped word)) (.early rfl rfl rfl rfl)

def Exit.served : Exit → Bool
  | .redirected _ => false
  | .faulted _ => false
  | .spinning => false
  | _ => true

theorem laterExitMem {env c cmd argv exit} (h : laterExit env c cmd argv = some exit) :
    ∃ check ∈ laterChecks env c cmd argv, check.exit = exit := by
  obtain ⟨check,found,same⟩ := Option.map_eq_some_iff.mp h
  exact ⟨check,List.mem_of_find?_eq_some found,same⟩

theorem laterExitServed {env c cmd argv exit} (h : laterExit env c cmd argv = some exit) :
    Exit.served exit = true ∧ ∀ cmd' args, exit ≠ .called cmd' args := by
  obtain ⟨check,member,rfl⟩ := laterExitMem h
  simp only [laterChecks,List.mem_cons,List.not_mem_nil,or_false] at member
  rcases member with rfl | rfl | rfl | rfl | rfl | rfl | rfl | rfl | rfl | rfl <;>
    exact ⟨rfl,fun _ _ same => by cases same⟩

theorem callOrRefuseServed (env : Env) (cl : ClusterState) (c : Client) (cmd : RedisCommand)
    (argv : List Bytes) (effects : List Effect) (touched : Option HashSlot) :
    Exit.served (callOrRefuse env cl c cmd argv effects touched).exit = true := by
  unfold callOrRefuse
  split
  · rename_i exit later
    exact (laterExitServed later).1
  · rfl

theorem afterBlockRedirected {env cmd argv selected block answer}
    (redirected : (afterBlock env cmd argv selected block).exit = .redirected answer) :
    block.stop = some (.redirected answer) := by
  unfold afterBlock at redirected
  split at redirected
  · rename_i stop
    exact stop.trans (congrArg some redirected)
  · have served := callOrRefuseServed env block.cluster block.client cmd argv block.effects (some selected)
    rw [redirected] at served
    contradiction

theorem callOrRefuseCalled {env cl c cmd argv effects touched cmd' args}
    (called : (callOrRefuse env cl c cmd argv effects touched).exit = .called cmd' args) :
    cmd' = cmd ∧ args = argv ∧ laterExit env c cmd argv = none := by
  unfold callOrRefuse at called
  split at called
  · rename_i exit later
    exact absurd called ((laterExitServed later).2 cmd' args)
  · rename_i later
    cases called
    exact ⟨rfl,rfl,later⟩

theorem forwardedCalled {env cl c argv cmd args} (magic : strncmpEqual (argv.headD []) magicWord 6 = true)
    (called : (processCommand env cl c argv).exit = .called cmd args) : args = argv.drop 2 := by
  generalize same : processCommand env cl c argv = out at called
  have way := processWay env cl c argv
  rw [same] at way
  cases way with
  | early _ _ _ exit => rw [called] at exit; contradiction
  | bypass arrives _ _ =>
    obtain ⟨_,own,_⟩ := callOrRefuseCalled called
    rw [own]
    cases arrives with
    | plain word => exact absurd word (magicNotPlain magic)
    | wrapped word => exact magicInner word
  | routed word _ _ => exact absurd word (magicNotPlain magic)

theorem callOrRefuseTouched (env : Env) (cl : ClusterState) (c : Client) (cmd : RedisCommand)
    (argv : List Bytes) (effects : List Effect) (touched : Option HashSlot) :
    (callOrRefuse env cl c cmd argv effects touched).touched = touched :=
  (callOrRefuseSame env cl c cmd argv effects touched).2.2

theorem touchedWay {env cl c argv h} (touched : (processCommand env cl c argv).touched = some h) :
    ∃ cmd q, magicBranch (fun s => (cl.slotStatus s).cachedOp) argv = .plain ∧
      Accepted env c cmd argv ∧ clusterGuard env c cmd argv = true ∧
      getNodeByQuery env cl c cmd argv = some q ∧ h = Query.variable env q ∧
      processCommand env cl c argv = clusterBlock env cl c cmd argv := by
  generalize same : processCommand env cl c argv = out at touched
  have way := processWay env cl c argv
  rw [same] at way
  cases way with
  | early _ _ none => rw [none] at touched; contradiction
  | bypass =>
    rw [callOrRefuseTouched] at touched
    contradiction
  | @routed cmd word accepted guard =>
    have selected : ∃ q, getNodeByQuery env cl c cmd argv = some q ∧ h = Query.variable env q := by
      unfold clusterBlock at touched
      split at touched
      · contradiction
      · rename_i q asked
        refine ⟨q,asked,?_⟩
        split at touched
        · exact (Option.some.inj touched).symm
        · rw [(afterBlockSame _ _ _ _ _).2.2] at touched
          exact (Option.some.inj touched).symm
    obtain ⟨q,asked,own⟩ := selected
    exact ⟨cmd,q,word,accepted,guard,asked,own,rfl⟩

theorem storedWay {env cl c argv s} (touched : (processCommand env cl c argv).touched = some (.stored s)) :
    ∃ cmd q, magicBranch (fun s => (cl.slotStatus s).cachedOp) argv = .plain ∧
      Accepted env c cmd argv ∧ clusterGuard env c cmd argv = true ∧
      getNodeByQuery env cl c cmd argv = some q ∧ q.hashslot = some s ∧
      processCommand env cl c argv =
        afterBlock env cmd argv (.stored s) (hotSlotBranches env cl c cmd argv q s) := by
  obtain ⟨cmd,q,word,accepted,guard,asked,own,same⟩ := touchedWay touched
  have stored : q.hashslot = some s := by
    unfold Query.variable at own
    split at own
    · rename_i slot stored
      cases HashSlot.stored.inj own
      exact stored
    · contradiction
  refine ⟨cmd,q,word,accepted,guard,asked,stored,?_⟩
  rw [same,clusterBlock,asked]
  dsimp only
  rw [← own,storedSlot?]

/-- The copied branch of the cluster block: this node serves the slot for its group. -/
def servesAsCopy (cl : ClusterState) (c : Client) (s : Slot) : Bool :=
  (cl.slotStatus s).isCopied && (isCopyInstance cl s || (isOwner cl s && isNoForward c s))

/-- The ways out of the last part of the block: the command goes on as one of a copy or
of a plain slot, or the block ends it. -/
inductive ServeWay (env : Env) (cl : ClusterState) (c : Client) (cmd : RedisCommand) (argv : List Bytes)
    (q : Query) (s : Slot) (st : SlotState) (effects : List Effect) : Block → Prop where
  | copy {b more} (copy : servesAsCopy cl c s = true)
      (written : copiedWrite env cl s (isWriteCommand c cmd) argv st = some (b,more)) :
      ServeWay env cl c cmd argv q s st effects
        ⟨cl.setSlot s { b with dealedOps := b.dealedOps + 1 },c,effects ++ more,none⟩
  | plain (copy : servesAsCopy cl c s = false) (home : q.node = some cl.myself) :
      ServeWay env cl c cmd argv q s st effects
        ⟨cl.setSlot s { st with dealedOps := st.dealedOps + 1 },c,effects,none⟩
  | stopped {client exit} (unserved : Exit.served exit = false) :
      ServeWay env cl c cmd argv q s st effects ⟨cl.setSlot s st,client,effects,some exit⟩

theorem serveWay {env cl c cmd argv q s st effects} (copied : st.isCopied = (cl.slotStatus s).isCopied) :
    ServeWay env cl c cmd argv q s st effects (serveOrRedirect env cl c cmd argv q s st effects) := by
  have same : (st.isCopied && (isCopyInstance cl s || (isOwner cl s && isNoForward c s))) =
      servesAsCopy cl c s := by rw [copied]; rfl
  unfold serveOrRedirect
  split
  · rename_i copy
    split
    · exact .stopped rfl
    · rename_i b more written
      exact .copy (same ▸ copy) written
  · rename_i plain
    split
    · refine .stopped ?_
      split <;> rfl
    · rename_i home
      exact .plain (by rw [← same]; simpa using plain) (by simpa using home)

def forwards (cl : ClusterState) (c : Client) (s : Slot) : Bool :=
  isOwner cl s && (cl.slotStatus s).isCopied && !isNoForward c s &&
    decide ((cl.slotStatus s).relatedIns.size > 0) && (cl.slotStatus s).haveCopy

def keeps (env : Env) (cl : ClusterState) (c : Client) (s : Slot) : Bool :=
  forwards cl c s && decide (getForwardAim env cl (cl.slotStatus s).relatedIns = some cl.myself)

section forward
variable {env : Env} {cl : ClusterState} {c : Client} {cmd : RedisCommand} {argv : List Bytes}
  {q : Query} {s : Slot}

theorem syncedAfter (st : SlotState) (copied : st.isCopied = true) (have_ : st.haveCopy = true) :
    (oneTimeSync env cl.myself s st).1.isSynced = true := by
  unfold oneTimeSync
  split
  · rfl
  · rename_i done
    simpa [copied,have_] using done

theorem forwardCondition {st : SlotState} (kept : Kept (cl.slotStatus s) st)
    (synced : st.isCopied = true → st.haveCopy = true → st.isSynced = true) :
    (isOwner cl s && st.isCopied && !isNoForward c s && st.isSynced && decide (st.relatedIns.size > 0) &&
      st.haveCopy) = forwards cl c s := by
  rw [forwards,← kept.copied,← kept.have_,← kept.related]
  cases copied : st.isCopied with
  | false => simp
  | true =>
    cases have_ : st.haveCopy with
    | false => simp
    | true => simp [synced copied have_]

theorem staysKept {st : SlotState} (kept : Kept (cl.slotStatus s) st)
    (synced : st.isCopied = true → st.haveCopy = true → st.isSynced = true)
    (stay : forwardBranch env cl (isOwner cl s) (isNoForward c s) st = .stay) : keeps env cl c s = true := by
  unfold forwardBranch at stay
  rw [forwardCondition kept synced] at stay
  split at stay <;> try contradiction
  rename_i on
  rw [kept.related] at stay
  split at stay
  · contradiction
  · rename_i node drawn
    split at stay
    · rename_i own
      simp [keeps,on,drawn,own]
    · contradiction

/-- The block caches a write for a running copy, makes the one-time flush and then serves
the command, for the client or for the client it now keeps. -/
theorem branchWay (env : Env) (cl : ClusterState) (c : Client) (cmd : RedisCommand) (argv : List Bytes)
    (q : Query) (s : Slot) :
    (copyingCache env s (isWriteCommand c cmd) argv (cl.slotStatus s) = none ∧
      hotSlotBranches env cl c cmd argv q s = ⟨cl,c,[],some (.faulted .argvOutOfRange)⟩) ∨
    ∃ st cachedNow c', copyingCache env s (isWriteCommand c cmd) argv (cl.slotStatus s) =
        some (st,cachedNow) ∧ (c' = c ∨ (c' = noForward c s ∧ keeps env cl c s = true)) ∧
      ServeWay env cl c' cmd argv q s (oneTimeSync env cl.myself s st).1
        (cachedNow ++ (oneTimeSync env cl.myself s st).2) (hotSlotBranches env cl c cmd argv q s) := by
  unfold hotSlotBranches
  split
  · rename_i short
    exact .inl ⟨short,rfl⟩
  · rename_i st cachedNow first
    right
    have cached := (copyingCacheTrace cl.myself (cl.slotStatus s).relatedIns first).2
    have kept := cached.trans (oneTimeSyncTrace env cl.myself s (fun _ => False) cached.related).2
    dsimp only
    split
    · exact ⟨st,cachedNow,c,first,.inl rfl,.stopped rfl⟩
    · exact ⟨st,cachedNow,c,first,.inl rfl,.stopped rfl⟩
    · rename_i stay
      have synced : (oneTimeSync env cl.myself s st).1.isCopied = true →
          (oneTimeSync env cl.myself s st).1.haveCopy = true →
          (oneTimeSync env cl.myself s st).1.isSynced = true := by
        intro copied have_
        have own := (oneTimeSyncTrace env cl.myself s (fun _ => False) cached.related).2
        exact syncedAfter st (own.copied ▸ copied) (own.have_ ▸ have_)
      exact ⟨st,cachedNow,noForward c s,first,.inr ⟨rfl,staysKept kept synced stay⟩,serveWay kept.copied⟩
    · exact ⟨st,cachedNow,c,first,.inl rfl,serveWay kept.copied⟩

theorem branchServes (env : Env) (c : Client) (cmd : RedisCommand) (argv : List Bytes) (q : Query)
    (idle : ((cl.slotStatus s).haveCopy && (cl.slotStatus s).isCopying) = false) :
    ∃ c', (c' = c ∨ (c' = noForward c s ∧ keeps env cl c s = true)) ∧
      ServeWay env cl c' cmd argv q s (oneTimeSync env cl.myself s (cl.slotStatus s)).1
        (oneTimeSync env cl.myself s (cl.slotStatus s)).2 (hotSlotBranches env cl c cmd argv q s) := by
  have skipped : copyingCache env s (isWriteCommand c cmd) argv (cl.slotStatus s) =
      some (cl.slotStatus s,[]) := by
    rw [copyingCache,idle,Bool.false_and]
    rfl
  rcases branchWay env cl c cmd argv q s with ⟨short,_⟩ | ⟨st,cachedNow,c',first,own,way⟩
  · rw [skipped] at short
    contradiction
  · cases Option.some.inj (skipped.symm.trans first)
    exact ⟨c',own,way⟩

end forward

theorem leaveClientForward (c : Client) (cmd : RedisCommand) (argv : List Bytes) (exit : Exit) :
    (leaveClient c cmd argv exit).noForwardHotSlot = c.noForwardHotSlot := by
  unfold leaveClient
  split
  · unfold rejectClient discardTransaction flagTransaction
    repeat' split
    all_goals rfl
  · unfold queueMultiCommand
    split <;> rfl
  · rfl

theorem callOrRefuseForward (env : Env) (cl : ClusterState) (c : Client) (cmd : RedisCommand)
    (argv : List Bytes) (effects : List Effect) (touched : Option HashSlot) :
    (callOrRefuse env cl c cmd argv effects touched).client.noForwardHotSlot = c.noForwardHotSlot := by
  unfold callOrRefuse
  split
  · exact leaveClientForward c cmd argv _
  · rfl

end HpuCache.CommandPath
