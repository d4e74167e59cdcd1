import HpuCache.CommandPath
import HpuCache.CommandTable
import HpuCache.EventRun

/-! The connections of one node and what they have sent before. The header of a
forwarded command exempts its connection from the slot checks for good; no other
connection gets past them but by the few ways that a single command shows. -/
namespace HpuCache.BypassHistory
open ByteText KeySlot KeyedDict CommandCache ServerState GroupCommands NodeQuery ProcessCommand
open SlotTrace CommandPath CommandTable EventRun

abbrev Connection := Nat

structure Server where
  cluster : ClusterState
  clients : Connection → Client

inductive Event where
  | open_ (conn : Connection)
  | command (conn : Connection) (env : Env) (argv : List Bytes)
  -- The bus, the cron and administration change the cluster state.
  | update (cluster : ClusterState)

/-- What executing a command does to its client: everything but the flag of forwarded commands. -/
structure CallEffect where
  after : Env → Outcome → Client
  keepsSync : ∀ env out, (after env out).sync = out.client.sync

def step (call : CallEffect) (srv : Server) : Event → Option Server
  | .open_ conn => some { srv with clients := Function.update srv.clients conn .fresh }
  | .command conn env argv =>
    if argv = [] then none else
      let out := processCommand env srv.cluster (srv.clients conn) argv
      some ⟨out.cluster,Function.update srv.clients conn (call.after env out)⟩
  | .update cluster => some { srv with cluster := cluster }

def wrapped (argv : List Bytes) : Bool := strncmpEqual (argv.headD []) magicWord 6

def wrappedBefore (conn : Connection) : List Event → Bool
  | [] => false
  | .open_ c :: past => if c = conn then false else wrappedBefore conn past
  | .command c _ argv :: past => (decide (c = conn) && wrapped argv) || wrappedBefore conn past
  | .update _ :: past => wrappedBefore conn past

theorem strncmpPrefix {s word : Bytes} (free : ZeroFree word) :
    strncmpEqual s word word.length = true ↔ word <+: cstr s := by
  have whole : (word ++ [0]).take word.length = word := List.take_left
  rw [strncmpEqual,decide_eq_true_eq,cstrZeroFree free,whole,eq_comm,← List.prefix_iff_eq_take,
    List.prefix_concat_iff,or_iff_right]
  rintro rfl
  exact free 0 (by simp) rfl

/-- The header is the whole word: a longer name that begins like it is not wrapped. -/
theorem wrappedWord (argv : List Bytes) : wrapped argv = true ↔ cstr (argv.headD []) = cstr magicWord := by
  have header : (cstr magicWord ++ [0]).take 6 = cstr magicWord ++ [0] := by decide
  have six : 6 = (cstr magicWord ++ [0]).length := by decide
  rw [wrapped,strncmpEqual,decide_eq_true_eq,header,eq_comm,six,← List.prefix_iff_eq_take,
    List.prefix_concat_iff,or_iff_left,List.append_left_inj,eq_comm]
  -- The zero that is compared last does not occur in a name.
  intro inside
  exact zeroFreeCstr (argv.headD []) 0 (inside.subset (by simp)) rfl

def baseMagicWord : Bytes := [87,65,78,71,69,80]

/-- The test of the base version: here the terminating zero is not compared. -/
def baseWrapped (argv : List Bytes) : Bool := strncmpEqual (argv.headD []) baseMagicWord 6

theorem baseWrappedPrefix (argv : List Bytes) :
    baseWrapped argv = true ↔ baseMagicWord <+: cstr (argv.headD []) :=
  strncmpPrefix (by decide : ZeroFree baseMagicWord)

theorem migratePrefix (argv : List Bytes) :
    isMigrate argv = true ↔ textRestore <+: cstr (argv.headD []) ∨ textMigrate <+: cstr (argv.headD []) := by
  rw [isMigrate,Bool.or_eq_true]
  exact or_congr (strncmpPrefix (by decide)) (strncmpPrefix (by decide))

theorem flagSync (c : Client) : (flagTransaction c).sync = c.sync := by
  unfold flagTransaction
  split <;> rfl

theorem redirectSync (c : Client) (cmd : RedisCommand) : (redirectClient c cmd).sync = c.sync := by
  unfold redirectClient
  split
  · rfl
  · exact flagSync c

theorem rejectSync (c : Client) (cmd : RedisCommand) : (rejectClient c cmd).sync = c.sync := by
  unfold rejectClient discardTransaction
  split <;> exact flagSync c

theorem callOrRefuseSync (env : Env) (cl : ClusterState) (c : Client) (cmd : RedisCommand)
    (argv : List Bytes) (effects : List Effect) (touched : Option HashSlot) :
    (callOrRefuse env cl c cmd argv effects touched).client.sync = c.sync := by
  unfold callOrRefuse
  split
  · rename_i exit _
    cases exit with
    | rejected => exact rejectSync c cmd
    | queued =>
      simp only [leaveClient,queueMultiCommand]
      split <;> rfl
    | _ => rfl
  · rfl

theorem branchSync (env : Env) (cl : ClusterState) (c : Client) (cmd : RedisCommand) (argv : List Bytes)
    (q : Query) (s : Slot) : (hotSlotBranches env cl c cmd argv q s).client.sync = c.sync := by
  have serve : ∀ c' st effects, c'.sync = c.sync →
      (serveOrRedirect env cl c' cmd argv q s st effects).client.sync = c.sync := by
    intro c' st effects same
    unfold serveOrRedirect
    split
    · split <;> exact same
    · split
      · exact (redirectSync c' cmd).trans same
      · exact same
  unfold hotSlotBranches
  split
  · rfl
  · dsimp only
    split
    · rfl
    · rfl
    · exact serve _ _ _ rfl
    · exact serve _ _ _ rfl

theorem dispatchClientSync (env : Env) (cl : ClusterState) (c : Client) (argv : List Bytes) :
    (dispatch env cl c argv).client.sync = c.sync := by
  unfold dispatch
  split
  · exact flagSync c
  · rename_i cmd _
    split
    · exact rejectSync c cmd
    split
    · exact rejectSync c cmd
    split
    · exact rejectSync c cmd
    split
    · unfold clusterBlock
      split
      · rfl
      · split
        · rfl
        · unfold afterBlock
          split
          · exact branchSync ..
          · exact (callOrRefuseSync ..).trans (branchSync ..)
    · exact callOrRefuseSync ..

theorem wrappedBranch {cachedOp : Slot → OpDict} {argv : List Bytes} (some_ : argv ≠ [])
    (other : magicBranch cachedOp argv ≠ .plain) : wrapped argv = true := by
  cases argv with
  | nil => contradiction
  | cons word rest =>
    cases magic : strncmpEqual word magicWord 6 with
    | true => exact magic
    | false => simp [magicBranch,magic] at other

theorem processSync (env : Env) (cl : ClusterState) (c : Client) {argv : List Bytes} (some_ : argv ≠ []) :
    (processCommand env cl c argv).client.sync = (wrapped argv || c.sync) := by
  unfold processCommand
  split
  · rename_i quit
    cases word : wrapped argv with
    | false => rfl
    | true =>
      have name := (wrappedWord argv).mp word
      rw [strcasecmpEqual,name] at quit
      contradiction
  split
  · rename_i word
    have plain : wrapped argv = false := by
      cases magic : wrapped argv with
      | false => rfl
      | true => exact absurd word (magicNotPlain magic)
    rw [plain,dispatchClientSync]
    rfl
  · rename_i word
    rw [wrappedBranch some_ (by rw [word]; simp)]
    rfl
  · rename_i word
    rw [wrappedBranch some_ (by rw [word]; simp)]
    exact @followWay (fun out => out.client.sync = true) env cl c _ rfl rfl
  · rename_i word
    rw [wrappedBranch some_ (by rw [word]; simp)]
    exact @followWay (fun out => out.client.sync = true) env cl c _ (dispatchClientSync ..) rfl

theorem syncHistory {call : CallEffect} {start srv : Server} {past : List Event}
    (begun : ∀ conn, (start.clients conn).sync = false) (run : Reach (Takes (step call)) start past srv)
    (conn : Connection) : (srv.clients conn).sync = wrappedBefore conn past := by
  induction run with
  | start => exact begun conn
  | @next past srv event next _ taken ih =>
    simp only [Takes] at taken
    cases event with
    | open_ c =>
      cases Option.some.inj taken
      dsimp only
      by_cases same : conn = c
      · subst same
        rw [Function.update_self,wrappedBefore,if_pos rfl]
        rfl
      · rw [wrappedBefore,if_neg (Ne.symm same),Function.update_of_ne same]
        exact ih
    | command c env argv =>
      simp only [step] at taken
      split at taken <;> try contradiction
      rename_i some_
      cases Option.some.inj taken
      dsimp only
      by_cases same : conn = c
      · subst same
        rw [Function.update_self,call.keepsSync,processSync env _ _ some_,ih]
        simp [wrappedBefore]
      · rw [Function.update_of_ne same,ih]
        simp [wrappedBefore,Ne.symm same]
    | update cluster =>
      cases Option.some.inj taken
      exact ih

/-- A slot that this node neither owns, imports nor serves as a copy for its group. -/
structure Foreign (cl : ClusterState) (s : Slot) : Prop where
  owned : cl.slots s ≠ some cl.myself
  importing : cl.importingSlotsFrom s = none
  copy : ¬ ((cl.slotStatus s).isCopied = true ∧ (cl.slotStatus s).relatedIns.has cl.myself = true)

/-- The command, or a queued one, has a key of the slot. -/
def KeyIn (s : Slot) (c : Client) (cmd : RedisCommand) (argv : List Bytes) : Prop :=
  ∃ keys, allKeys (queryCommands c cmd argv) = some keys ∧ ∃ key ∈ keys, keyHashSlot key = s

/-- A read that a replica of the slot's owner may answer, for a client that accepts stale data. -/
def staleRead (cl : ClusterState) (s : Slot) (c : Client) (cmd : RedisCommand) : Bool :=
  c.readonly && !isWriteCommand c cmd && cl.isSlave && decide (cl.slaveof = cl.slots s)

theorem foreignServes {cl : ClusterState} {s : Slot} (foreign : Foreign cl s) (c : Client) :
    servesAsCopy cl c s = false := by
  cases copied : (cl.slotStatus s).isCopied with
  | false => simp [servesAsCopy,copied]
  | true =>
    have apart : (cl.slotStatus s).relatedIns.has cl.myself = false := by
      simpa [copied] using foreign.copy
    simp [servesAsCopy,isCopyInstance,isOwner,apart,foreign.owned]

theorem foreignRoute {cl c cmd scan} (sound : ScanSound cl scan) (foreign : Foreign cl scan.slot)
    (home : (routeSlot cl c cmd scan).node = some cl.myself) : staleRead cl scan.slot c cmd = true := by
  have away : scan.node ≠ cl.myself := fun same => foreign.owned (by rw [sound.owner,same])
  have migrating : scan.migratingSlot = false := by
    cases on : scan.migratingSlot with
    | false => rfl
    | true => exact absurd (sound.migrating on).1 away
  have importing : scan.importingSlot = false := by
    cases on : scan.importingSlot with
    | false => rfl
    | true => simpa [foreign.importing] using sound.importing on
  simp only [routeSlot,migrating,importing,Bool.or_self,Bool.false_and,Bool.false_eq_true,if_false] at home
  split at home
  · rename_i stale
    rwa [staleRead,sound.owner]
  · exact absurd (Option.some.inj home) away

theorem foreignRouted {env cl c argv t s cmd args}
    (touched : (processCommand env cl c argv).touched = some (.stored t))
    (called : (processCommand env cl c argv).exit = .called cmd args) (foreign : Foreign cl s)
    (keyed : KeyIn s c cmd args) : staleRead cl s c cmd = true := by
  obtain ⟨cmd',q,_,_,_,asked,stored,same⟩ := storedWay touched
  obtain ⟨scan,_,sound,slot,route,keys,got,all⟩ := storedSlot asked stored
  rw [same,afterBlock] at called
  split at called
  · rename_i exit stop
    rcases branchWay env cl c cmd' argv q t with ⟨_,short⟩ | ⟨st,_,_,_,_,way⟩
    · rw [short] at stop
      cases Option.some.inj stop
      contradiction
    · generalize hotSlotBranches env cl c cmd' argv q t = block at way stop
      cases way with
      | stopped unserved =>
        cases Option.some.inj stop
        subst called
        contradiction
      | _ => contradiction
  · rename_i stop
    obtain ⟨rfl,rfl,_⟩ := callOrRefuseCalled called
    obtain ⟨keys',got',key,member,own⟩ := keyed
    cases Option.some.inj (got.symm.trans got')
    obtain rfl : t = s := (all key member).symm.trans own
    rcases branchWay env cl c cmd args q t with ⟨_,short⟩ | ⟨st,_,c',_,_,way⟩
    · rw [short] at stop
      contradiction
    · generalize hotSlotBranches env cl c cmd args q t = block at way stop
      cases way with
      | copy copy _ =>
        rw [foreignServes foreign c'] at copy
        contradiction
      | plain _ home =>
        rw [route] at home
        rw [← slot] at foreign ⊢
        exact foreignRoute sound foreign home
      | stopped => contradiction

theorem keyedPositions {s : Slot} {c : Client} {cmd : RedisCommand} {argv : List Bytes}
    (keyed : KeyIn s c cmd argv) :
    (!cmdHasMovableKeys cmd && cmd.firstkey = 0 && cmd.proc ≠ .exec) = false := by
  cases bare : (!cmdHasMovableKeys cmd && cmd.firstkey = 0 && cmd.proc ≠ .exec) with
  | false => rfl
  | true =>
    simp only [Bool.and_eq_true,Bool.not_eq_true',decide_eq_true_eq,cmdHasMovableKeys,
      Bool.or_eq_false_iff,Option.isSome_eq_false_iff,Option.isNone_iff_eq_none] at bare
    obtain ⟨⟨⟨fixed,plain⟩,first⟩,other⟩ := bare
    obtain ⟨keys,got,key,member,_⟩ := keyed
    have none : getKeysFromCommand cmd argv = some [] := by
      unfold getKeysFromCommand
      rw [plain]
      dsimp only
      split
      · rename_i getkeys module present
        simp [module,present] at fixed
      · rw [getKeysUsingCommandTable,if_pos first]
        rfl
    rw [queryCommands,if_neg other] at got
    simp only [allKeys,none,bind,Option.bind,List.append_nil,Option.some.injEq] at got
    rw [← got] at member
    contradiction

/-- The ways for a command past the checks of its slot. -/
inductive Excused (env : Env) (cl : ClusterState) (s : Slot) (c : Client) (cmd : RedisCommand)
    (argv args : List Bytes) : Prop where
  | wrapped (word : wrapped argv = true)
  | exempt (sync : c.sync = true)
  | transfer (migrate : isMigrate args = true)
  | master (link : c.master = true ∨ c.luaOfMaster = true)
  | alone (single : env.clusterEnabled = false)
  | stale (read : staleRead cl s c cmd = true)

theorem foreignCalled {env cl c argv s cmd args} (some_ : argv ≠ []) (foreign : Foreign cl s)
    (called : (processCommand env cl c argv).exit = .called cmd args)
    (selected : ∀ stack, (processCommand env cl c argv).touched ≠ some (.unset stack))
    (keyed : KeyIn s c cmd args) : Excused env cl s c cmd argv args := by
  cases touched : (processCommand env cl c argv).touched with
  | some h =>
    cases h with
    | stored t => exact .stale (foreignRouted touched called foreign keyed)
    | unset stack => exact absurd touched (selected stack)
  | none =>
    generalize same : processCommand env cl c argv = out at called touched
    have way := processWay env cl c argv
    rw [same] at way
    cases way with
    | early _ _ _ exit =>
      rw [called] at exit
      contradiction
    | bypass arrives _ guard =>
      obtain ⟨rfl,rfl,_⟩ := callOrRefuseCalled called
      cases arrives with
      | wrapped word => exact .wrapped (wrappedBranch some_ (by rw [word]; simp))
      | plain word =>
        have open_ : env.clusterEnabled = false ∨ c.master = true ∨ isMigrate argv = true ∨
            c.sync = true ∨ c.luaOfMaster = true := by
          have positions := keyedPositions keyed
          simp only [clusterGuard,positions] at guard
          cases enabled : env.clusterEnabled <;> cases master : c.master <;>
            cases migrate : isMigrate argv <;> cases sync : c.sync <;> simp_all
        rcases open_ with single | link | migrate | sync | script
        · exact .alone single
        · exact .master (.inl link)
        · exact .transfer migrate
        · exact .exempt sync
        · exact .master (.inr script)
    | routed _ _ _ =>
      unfold clusterBlock at called touched
      split at called
      · contradiction
      · rename_i q asked
        simp only [asked] at touched
        split at called
        · contradiction
        · rename_i inside
          simp only [inside,(afterBlockSame _ _ _ _ _).2.2] at touched
          contradiction

/-- In every state reached, a command on a foreign slot is executed only when it came wrapped,
its connection has sent a wrapped command since it was opened, it is a transfer of the slot,
comes from the master of this node, or is a stale read. A connection that has not sent one gets
the answers of an unexempted client. A longer name is not the magic word, but is one in the
base version. -/
theorem bypassAccounted {call : CallEffect} {start srv : Server} {past : List Event}
    (begun : ∀ conn, (start.clients conn).sync = false) (run : Reach (Takes (step call)) start past srv) :
    (∀ conn env argv cmd args s, argv ≠ [] → Foreign srv.cluster s → env.clusterEnabled = true →
      (processCommand env srv.cluster (srv.clients conn) argv).exit = .called cmd args →
      (∀ stack, (processCommand env srv.cluster (srv.clients conn) argv).touched ≠ some (.unset stack)) →
      KeyIn s (srv.clients conn) cmd args →
      wrapped argv = true ∨ wrappedBefore conn past = true ∨
        (textRestore <+: cstr (args.headD []) ∨ textMigrate <+: cstr (args.headD [])) ∨
        (srv.clients conn).master = true ∨ (srv.clients conn).luaOfMaster = true ∨
        staleRead srv.cluster s (srv.clients conn) cmd = true) ∧
    (∀ conn env argv, wrappedBefore conn past = false →
      processCommand env srv.cluster (srv.clients conn) argv =
        processCommand env srv.cluster { srv.clients conn with sync := false } argv) ∧
    ∀ argv, (wrapped argv = true ↔ cstr (argv.headD []) = cstr magicWord) ∧
      (baseWrapped argv = true ↔ baseMagicWord <+: cstr (argv.headD [])) := by
  have flag := syncHistory begun run
  refine ⟨?_,?_,fun argv => ⟨wrappedWord argv,baseWrappedPrefix argv⟩⟩
  · intro conn env argv cmd args s some_ foreign enabled called selected keyed
    cases foreignCalled some_ foreign called selected keyed with
    | wrapped word => exact .inl word
    | exempt sync => exact .inr (.inl ((flag conn).symm.trans sync))
    | transfer migrate => exact .inr (.inr (.inl ((migratePrefix args).mp migrate)))
    | master link =>
      rcases link with link | script
      · exact .inr (.inr (.inr (.inl link)))
      · exact .inr (.inr (.inr (.inr (.inl script))))
    | alone single =>
      rw [enabled] at single
      contradiction
    | stale read => exact .inr (.inr (.inr (.inr (.inr read))))
  · intro conn env argv clean
    have off : (srv.clients conn).sync = false := (flag conn).trans clean
    rw [← off]

def outsider : Server := ⟨ClusterState.initial 1 2,fun _ => .fresh⟩

def quietCall : CallEffect := ⟨fun _ out => out.client,fun _ _ => rfl⟩

def forwardedSet : List Bytes := [magicWord,(clock 0).text,textSet,letterK,letterA]

theorem outsiderForeign : Foreign outsider.cluster (keyHashSlot letterK) :=
  ⟨by decide,rfl,by decide⟩

def forwardedOnce : List Event := [.command 7 (calm (clock 1)) forwardedSet]

def plainGet : List Bytes := [textGet,letterK]

/-- After its wrapped write the connection may read the foreign slot, and nothing but the history
excuses it; another connection has no such history. -/
theorem bypassAccountedShown : ∃ srv, Reach (Takes (step quietCall)) outsider forwardedOnce srv ∧
    Exit.calls (processCommand (calm (clock 2)) srv.cluster (srv.clients 7) plainGet).exit = some plainGet ∧
    wrappedBefore 7 forwardedOnce = true ∧
    processCommand (calm (clock 2)) srv.cluster (srv.clients 8) plainGet =
      processCommand (calm (clock 2)) srv.cluster { srv.clients 8 with sync := false } plainGet := by
  have run : Reach (Takes (step quietCall)) outsider forwardedOnce _ := .next .start rfl
  have accounted := @bypassAccounted quietCall outsider _ forwardedOnce (fun _ => rfl) run
  refine ⟨_,run,by decide,?_,accounted.2.1 8 (calm (clock 2)) plainGet rfl⟩
  have ways := accounted.1 7 (calm (clock 2)) plainGet getEntry plainGet (keyHashSlot letterK) (by decide)
    outsiderForeign rfl (by rfl) (fun stack touched => by contradiction) ⟨[letterK],by decide,letterK,by decide,rfl⟩
  rcases ways with word | before | (restore | migrate) | master | script | read
  · exact absurd word (by decide)
  · exact before
  · exact absurd restore (by decide)
  · exact absurd migrate (by decide)
  · contradiction
  · contradiction
  · contradiction

/-- After a forwarded command the connection reads a foreign slot, which a fresh one does not. -/
theorem exemptionLasts :
    ∃ srv, replay (step quietCall) outsider [.command 7 (calm (clock 1)) forwardedSet] = some srv ∧
      Foreign srv.cluster (keyHashSlot letterK) ∧
      wrapped [textGet,letterK] = false ∧ isMigrate [textGet,letterK] = false ∧
      Exit.calls (processCommand (calm (clock 2)) srv.cluster (srv.clients 7) [textGet,letterK]).exit =
        some [textGet,letterK] ∧
      Exit.answer (processCommand (calm (clock 2)) srv.cluster .fresh [textGet,letterK]).exit =
        some (.moved (keyHashSlot letterK).val 1) := by
  refine ⟨_,rfl,outsiderForeign,by decide,by decide,by decide,by decide⟩

end HpuCache.BypassHistory
