import HpuCache.CommandPath
import HpuCache.LocalRouting

/-! What the command of an ordinary client comes to at a node without hot slots: it is called
because its keys are served here, or it is asked away because one of them is not here. -/
namespace HpuCache.ClientQuery
open ByteText KeySlot KeyedDict CommandCache ServerState NodeQuery ProcessCommand SlotTrace CommandPath
open LocalRouting (ServedHere seenAll routeHere)

/-- A client of the cluster with a command that is neither part of a transfer nor forwarded. -/
structure Ordinary (env : Env) (c : Client) (argv : List Bytes) : Prop where
  enabled : env.clusterEnabled = true
  redirects : env.noRedirection = false
  client : c.master = false ∧ c.sync = false ∧ c.luaOfMaster = false
  bare : c.multi = false → c.mstate = []
  word : strncmpEqual (argv.headD []) magicWord 6 = false
  moves : isMigrate argv = false
  cmd : ∀ cmd ∈ env.commands (argv.headD []), cmd.proc ≠ .migrate ∧ cmd.asking = false

/-- No slot is hot at this node. -/
def Cold (cl : ClusterState) : Prop :=
  ∀ s, (cl.slotStatus s).isCopied = false ∧ ((cl.slotStatus s).haveCopy && (cl.slotStatus s).isCopying) = false

/-- The keys of a command, as its redirection is about them. -/
def commandKeys (env : Env) (c : Client) (argv : List Bytes) : List Bytes :=
  ((env.commands (argv.headD [])).bind fun cmd => allKeys (queryCommands c cmd argv)).getD []

/-- The keys of a command that was called, and why it was called here. -/
def CalledHere (env : Env) (cl : ClusterState) (c : Client) (cmd : RedisCommand) (argv : List Bytes) : Prop :=
  ∃ keys, allKeys (queryCommands c cmd argv) = some keys ∧ (keys ≠ [] → ∃ s, (∀ key ∈ keys, keyHashSlot key = s) ∧
    (ServedHere env cl c cmd s keys ∨ (cl.slots s = some cl.myself ∧ cl.migratingSlotsTo s = some cl.myself)))

/-- The keys of a command that was asked to go elsewhere; the owner does not have all of them. -/
def AskedAway (env : Env) (cl : ClusterState) (keys : List Bytes) : Prop :=
  ∃ s, (∀ key ∈ keys, keyHashSlot key = s) ∧ cl.slots s = some cl.myself ∧ (cl.migratingSlotsTo s).isSome ∧
    ∃ key ∈ keys, env.lookupKeyRead key = false

section query
variable {env : Env} {cl : ClusterState} {c : Client} {cmd : RedisCommand} {argv : List Bytes}

theorem plainArrives (ordinary : Ordinary env c argv) {cachedOp : Slot → OpDict} {c' : Client} {argv' : List Bytes}
    (arrives : Arrives cachedOp c argv c' argv') : c' = c ∧ argv' = argv := by
  cases arrives with
  | plain _ => exact ⟨rfl,rfl⟩
  | wrapped word =>
    have plain := ordinary.word
    unfold magicBranch at word
    cases argv with
    | nil => contradiction
    | cons head rest =>
      simp only [List.headD_cons] at plain
      simp [plain] at word

theorem unguardedKeys (ordinary : Ordinary env c argv) (guard : clusterGuard env c cmd argv = false) :
    allKeys (queryCommands c cmd argv) = some [] := by
  obtain ⟨master,sync,lua⟩ := ordinary.client
  simp only [clusterGuard,ordinary.enabled,ordinary.moves,master,sync,lua,Bool.not_false,Bool.and_true,Bool.true_and,
    Bool.not_eq_false',Bool.and_eq_true,Bool.not_eq_true',decide_eq_true_eq] at guard
  obtain ⟨⟨fixed,first⟩,exec⟩ := guard
  have movable : cmd.moduleGetkeys = none ∧ (cmd.getkeysProc = none ∨ cmd.fromModule = true) := by
    simp only [cmdHasMovableKeys,Bool.or_eq_false_iff,Bool.and_eq_false_iff,Option.isSome_eq_false_iff,
      Option.isNone_iff_eq_none,Bool.not_eq_false'] at fixed
    exact ⟨fixed.2,fixed.1⟩
  have table : getKeysFromCommand cmd argv = some [] := by
    simp only [getKeysFromCommand,movable.1]
    rcases movable.2 with none | own
    · simp [none,getKeysUsingCommandTable,first]
    · simp [own,getKeysUsingCommandTable,first]
  simp [queryCommands,exec,allKeys,table]

theorem queryHere {q : Query} (ordinary : Ordinary env c argv) (asked : getNodeByQuery env cl c cmd argv = some q)
    (here : q.node = some cl.myself) : CalledHere env cl c cmd argv := by
  cases stored : q.hashslot with
  | some s =>
    obtain ⟨scan,scanned,_,own,rfl,keys,read,slots⟩ := storedSlot asked stored
    refine ⟨keys,read,fun _ => ⟨s,slots,?_⟩⟩
    rcases routeHere (seenAll scanned read) here with served | itself
    · exact .inl (own ▸ served)
    · exact .inr (own ▸ ⟨itself.owner,itself.target⟩)
  | none =>
    unfold getNodeByQuery at asked
    rw [if_neg (by simp [ordinary.redirects])] at asked
    split at asked
    · rename_i alone
      obtain ⟨exec,single⟩ := Bool.and_eq_true_iff.mp alone
      have empty := ordinary.bare (by simpa using single)
      exact ⟨[],by simp [queryCommands,of_decide_eq_true exec,empty,allKeys],nofun⟩
    split at asked
    · contradiction
    · cases Option.some.inj asked
      contradiction
    · rename_i bare
      obtain ⟨keys,read,_,_,none⟩ := scanCommandsSound (by simp) bare
      exact ⟨keys,read,fun some => absurd (none rfl).2 some⟩
    split at asked
    · cases Option.some.inj asked
      contradiction
    split at asked
    · cases Option.some.inj asked
      contradiction
    cases Option.some.inj asked
    rw [LocalRouting.routeSlotStored] at stored
    contradiction

theorem queryAsked {q : Query} {n : NodeId} (asked : getNodeByQuery env cl c cmd argv = some q)
    (named : q.node = some n) (code : q.code = some .ask) :
    ∃ keys, allKeys (queryCommands c cmd argv) = some keys ∧ AskedAway env cl keys := by
  cases stored : q.hashslot with
  | some s =>
    obtain ⟨scan,scanned,_,own,rfl,keys,read,slots⟩ := storedSlot asked stored
    have seen := seenAll scanned read
    obtain ⟨migrating,missing⟩ : scan.migratingSlot = true ∧ scan.missingKeys ≠ 0 := by
      revert code
      simp only [routeSlot]
      repeat' split
      all_goals simp_all
    obtain ⟨owner,marked⟩ := seen.sound.migrating migrating
    refine ⟨keys,read,s,slots,?_,own ▸ marked,?_⟩
    · rw [← own,← owner]
      exact seen.sound.owner
    · exact seen.lost (by rw [migrating,Bool.true_or]) missing
  | none =>
    unfold getNodeByQuery at asked
    repeat' split at asked
    all_goals first | contradiction | cases Option.some.inj asked
    all_goals first | contradiction | (rw [LocalRouting.routeSlotStored] at stored; contradiction)

/-- Where no slot is hot, the answer of the query is all that counts. -/
theorem coldBranches (cold : Cold cl) (q : Query) (s : Slot) :
    hotSlotBranches env cl c cmd argv q s =
      if q.node ≠ some cl.myself then ⟨cl.setSlot s (cl.slotStatus s),redirectClient c cmd,[],
        some (match clusterRedirectClient q.node s.val q.code with
          | some answer => .redirected answer
          | none => .faulted .panic)⟩
      else ⟨cl.setSlot s { cl.slotStatus s with dealedOps := (cl.slotStatus s).dealedOps + 1 },c,[],none⟩ := by
  obtain ⟨copied,idle⟩ := cold s
  have served : hotSlotBranches env cl c cmd argv q s = serveOrRedirect env cl c cmd argv q s (cl.slotStatus s) [] := by
    simp only [hotSlotBranches,copyingCache,idle,Bool.false_and,Bool.false_eq_true,if_false,oneTimeSync,copied,
      Bool.and_false,forwardBranch,List.append_nil]
  exact served.trans (if_neg (by simp [copied]))

theorem coldBlock (cold : Cold cl) (word : magicBranch (fun s => (cl.slotStatus s).cachedOp) argv = .plain)
    {exit : Exit} (left : (clusterBlock env cl c cmd argv).exit = exit)
      (served : (∃ cmd argv, exit = .called cmd argv) ∨
      ∃ answer, exit = .redirected answer) :
    ∃ q s, getNodeByQuery env cl c cmd argv = some q ∧
      ((q.node = some cl.myself ∧ exit = .called cmd argv) ∨
        ∃ answer, clusterRedirectClient q.node s q.code = some answer ∧ exit = .redirected answer) := by
  unfold clusterBlock at left
  split at left
  · subst left
    rcases served with ⟨_,_,same⟩ | ⟨_,same⟩ <;> cases same
  · rename_i q asked
    split at left
    · subst left
      rcases served with ⟨_,_,same⟩ | ⟨_,same⟩ <;> cases same
    · rename_i s _
      refine ⟨q,s.val,asked,?_⟩
      rw [coldBranches cold] at left
      by_cases home : q.node = some cl.myself
      · rw [if_neg (not_not.mpr home)] at left
        rcases served with ⟨cmd',args,rfl⟩ | ⟨answer,rfl⟩
        · obtain ⟨rfl,rfl,_⟩ := callOrRefuseCalled left
          exact .inl ⟨home,rfl⟩
        · have went := afterBlockRedirected left
          contradiction
      · rw [if_pos home] at left
        simp only [afterBlock] at left
        split at left
        · exact .inr ⟨_,by assumption,left.symm⟩
        · subst left
          rcases served with ⟨_,_,same⟩ | ⟨_,same⟩ <;> cases same

theorem calledHere (cold : Cold cl) (ordinary : Ordinary env c argv) {cmd' : RedisCommand} {argv' : List Bytes}
    (called : (processCommand env cl c argv).exit = .called cmd' argv') :
    argv' = argv ∧ env.commands (argv.headD []) = some cmd' ∧ CalledHere env cl c cmd' argv := by
  generalize same : processCommand env cl c argv = out at called
  have way := processWay env cl c argv
  rw [same] at way
  cases way with
  | early _ _ _ exit =>
    rw [called] at exit
    contradiction
  | bypass arrives accepted guard =>
    obtain ⟨rfl,rfl⟩ := plainArrives ordinary arrives
    obtain ⟨rfl,rfl,_⟩ := callOrRefuseCalled called
    exact ⟨rfl,accepted.known,[],unguardedKeys ordinary guard,fun some => absurd rfl some⟩
  | routed word accepted guard =>
    obtain ⟨q,s,asked,⟨home,left⟩ | ⟨answer,_,left⟩⟩ := coldBlock cold word called (.inl ⟨cmd',argv',rfl⟩)
    · cases left
      exact ⟨rfl,accepted.known,queryHere ordinary asked home⟩
    · cases left

theorem askedAway (cold : Cold cl) {s : Int} {n : NodeId}
    (away : (processCommand env cl c argv).exit = .redirected (.ask s n)) :
      AskedAway env cl (commandKeys env c argv) := by
  generalize same : processCommand env cl c argv = out at away
  have way := processWay env cl c argv
  rw [same] at way
  cases way with
  | early _ _ _ exit =>
    rw [away] at exit
    contradiction
  | @bypass c' argv' cmd' _ _ _ =>
    have served := callOrRefuseServed env cl c' cmd' argv' [] none
    rw [away] at served
    contradiction
  | routed word accepted guard =>
    obtain ⟨q,t,asked,⟨_,left⟩ | ⟨answer,named,left⟩⟩ := coldBlock cold word away (.inr ⟨_,rfl⟩)
    · cases left
    · cases left
      obtain ⟨code,node⟩ : q.code = some .ask ∧ q.node = some n := by
        rcases q with ⟨node,_,code⟩
        cases code with
        | none => simp [clusterRedirectClient] at named
        | some code => cases code <;> simp_all [clusterRedirectClient]
      obtain ⟨keys,read,missing⟩ := queryAsked asked node code
      simp only [commandKeys,accepted.known,Option.bind_some,read,Option.getD_some]
      exact missing

end query

end HpuCache.ClientQuery
