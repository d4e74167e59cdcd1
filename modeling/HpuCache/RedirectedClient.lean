import HpuCache.LiveMigration

/-! A client that goes where it is sent while a slot moves. Whichever node it begins with, a
command for one key is served after at most three redirections, unless MIGRATE keeps the source
from answering at all. -/
namespace HpuCache.RedirectedClient
open ByteText KeySlot KeyedDict CommandCache ServerState NodeQuery ProcessCommand SlotTrace CommandPath OwnKeys EventRun
  LiveMigration ClientQuery
open CommandTable (calm clock getEntry letterK)

/-- Everything but the cluster lets the command through. -/
structure Passes (env : Env) (c : Client) (cmd : RedisCommand) (argv : List Bytes) : Prop where
  some : argv ≠ []
  quit : strcasecmpEqual (argv.headD []) textQuit = false
  word : strncmpEqual (argv.headD []) magicWord 6 = false
  redirects : env.noRedirection = false
  transaction : cmd.proc = .exec → c.multi = true
  stays : cmd.proc ≠ .migrate
  accepted : Accepted env c cmd argv
  guard : clusterGuard env c cmd argv = true
  later : laterExit env c cmd argv = none

section query
variable {env : Env} {cl : ClusterState} {c : Client} {cmd : RedisCommand} {argv : List Bytes}
    {key : Bytes} {owner : NodeId}

/-- What the scan of a command whose keys are all the same has seen, after a number of them. -/
def sameScan (env : Env) (cl : ClusterState) (key : Bytes) (owner : NodeId) (seen : Nat) : Scan :=
  let migrating := decide (owner = cl.myself) && (cl.migratingSlotsTo (keyHashSlot key)).isSome
  let importing := !migrating && (cl.importingSlotsFrom (keyHashSlot key)).isSome
  ⟨key,keyHashSlot key,owner,migrating,importing,false,
    if (migrating || importing) && !env.lookupKeyRead key then seen else 0⟩

def scanAfter (env : Env) (cl : ClusterState) (key : Bytes) (owner : NodeId) (seen : Nat) : Option Scan :=
  if seen = 0 then none else some (sameScan env cl key owner seen)

theorem scanSame (here : cl.slots (keyHashSlot key) = some owner) (seen : Nat) :
    scanKey env cl key (scanAfter env cl key owner seen) = .ok (sameScan env cl key owner (seen + 1)) := by
  cases seen with
  | zero =>
    simp only [scanAfter,if_true,scanKey,scanFirst,here,countMissing,sameScan]
    split <;> simp_all
  | succ seen =>
    simp only [scanAfter,Nat.succ_ne_zero,if_false,scanKey,scanNext,countMissing,sameScan,if_true]
    split
    · rfl
    · rfl

theorem scanKeysSame (here : cl.slots (keyHashSlot key) = some owner) (keys : List Bytes) (all : ∀ k ∈ keys, k = key)
    (seen : Nat) :
    scanKeys env cl keys (scanAfter env cl key owner seen) = .ok (scanAfter env cl key owner (seen + keys.length)) := by
  induction keys generalizing seen with
  | nil => rfl
  | cons k rest ih =>
    obtain rfl := all k List.mem_cons_self
    simp only [scanKeys,scanSame here]
    have next := ih (fun j later => all j (List.mem_cons_of_mem _ later)) (seen + 1)
    rw [scanAfter,if_neg (Nat.succ_ne_zero _)] at next
    rw [next,List.length_cons,Nat.add_assoc,Nat.add_comm 1]

variable (env) in
theorem scanCommandsSame (here : cl.slots (keyHashSlot key) = some owner) {qs : List Queued} {keys : List Bytes}
    (read : allKeys qs = some keys) (all : ∀ k ∈ keys, k = key) (seen : Nat) :
    scanCommands env cl qs (scanAfter env cl key owner seen) =
      .scanned (scanAfter env cl key owner (seen + keys.length)) := by
  induction qs generalizing seen keys with
  | nil =>
    obtain rfl := Option.some.inj read
    rfl
  | cons q rest ih =>
    simp only [allKeys,bind,Option.bind_eq_some_iff,Option.some.injEq] at read
    obtain ⟨own,got,more,later,rfl⟩ := read
    simp only [scanCommands,got,scanKeysSame here own fun k member => all k (List.mem_append_left _ member)]
    rw [ih later (fun k member => all k (List.mem_append_right _ member)),List.length_append,Nat.add_assoc]

theorem querySame (passes : Passes env c cmd argv) (up : cl.stateOk = true)
    (here : cl.slots (keyHashSlot key) = some owner) {keys : List Bytes}
    (read : allKeys (queryCommands c cmd argv) = some keys) (keyed : keys ≠ []) (all : ∀ k ∈ keys, k = key) :
    ∃ n, 0 < n ∧ getNodeByQuery env cl c cmd argv = some (routeSlot cl c cmd (sameScan env cl key owner n)) := by
  have scanned := scanCommandsSame env here read all 0
  have some := List.length_pos_iff.mpr keyed
  rw [scanAfter,if_pos rfl,scanAfter,if_neg (by omega),Nat.zero_add] at scanned
  have single : (decide (cmd.proc = .exec) && !c.multi) = false := by
    cases exec : decide (cmd.proc = .exec) with
    | false => rfl
    | true => rw [passes.transaction (of_decide_eq_true exec)]; rfl
  refine ⟨keys.length,some,?_⟩
  simp [getNodeByQuery,passes.redirects,single,scanned,up]

theorem passedExit (passes : Passes env c cmd argv) (cold : Cold cl) {scan : Scan}
    (asked : getNodeByQuery env cl c cmd argv = some (routeSlot cl c cmd scan)) :
    (processCommand env cl c argv).exit = if (routeSlot cl c cmd scan).node = some cl.myself then .called cmd argv
      else match clusterRedirectClient (routeSlot cl c cmd scan).node scan.slot.val (routeSlot cl c cmd scan).code with
        | some answer => .redirected answer
        | none => .faulted .panic := by
  have plain : magicBranch (fun s => (cl.slotStatus s).cachedOp) argv = .plain := by
    cases argv with
    | nil => exact absurd rfl passes.some
    | cons head rest =>
      have word := passes.word
      simp only [List.headD_cons] at word
      simp [magicBranch,word]
  have accepted := passes.accepted
  have stored : Query.variable env (routeSlot cl c cmd scan) = .stored scan.slot := by
    rw [Query.variable,LocalRouting.routeSlotStored]
  have auth : (!env.defaultUserOpen && !c.authenticated && !cmd.noAuth) = false := accepted.auth
  rw [processCommand,if_neg (by rw [passes.quit]; exact Bool.false_ne_true),plain]
  simp only [dispatch,accepted.known,accepted.arity,auth,accepted.acl,passes.guard,Bool.false_eq_true,if_false,if_true,
    Bool.not_true,clusterBlock,asked,stored,storedSlot?,coldBranches cold,ite_not]
  split
  · simp [afterBlock,callOrRefuse,passes.later]
  · rfl

theorem routeSame (stays : cmd.proc ≠ .migrate) (master : cl.isSlave = false) {n : Nat} (some_ : 0 < n) :
    routeSlot cl c cmd (sameScan env cl key owner n) =
      if owner = cl.myself ∧ (cl.migratingSlotsTo (keyHashSlot key)).isSome then
        if env.lookupKeyRead key then ⟨some cl.myself,some (keyHashSlot key),none⟩
        else ⟨cl.migratingSlotsTo (keyHashSlot key),some (keyHashSlot key),some .ask⟩
      else if (cl.importingSlotsFrom (keyHashSlot key)).isSome ∧ (c.asking || cmd.asking) then
        ⟨some cl.myself,some (keyHashSlot key),none⟩
      else if owner ≠ cl.myself then ⟨some owner,some (keyHashSlot key),some .moved⟩
      else ⟨some owner,some (keyHashSlot key),none⟩ := by
  have positive : n ≠ 0 := by omega
  by_cases own : owner = cl.myself
  · cases marked : (cl.migratingSlotsTo (keyHashSlot key)).isSome with
    | true => cases present : env.lookupKeyRead key <;> simp [routeSlot,sameScan,own,marked,present,stays,positive,master]
    | false =>
      cases importing : (cl.importingSlotsFrom (keyHashSlot key)).isSome <;>
        simp [routeSlot,sameScan,own,marked,importing,stays,master]
  · cases importing : (cl.importingSlotsFrom (keyHashSlot key)).isSome <;>
      simp [routeSlot,sameScan,own,importing,stays,master]

/-- A command that nothing but the cluster can keep from being called, and whose keys are all the same. -/
structure OneKey (env : Env) (c : Client) (cmd : RedisCommand) (argv : List Bytes) (key : Bytes) : Prop where
  passes : Passes env c cmd argv
  keys : ∃ keys, allKeys (queryCommands c cmd argv) = some keys ∧ keys ≠ [] ∧ ∀ k ∈ keys, k = key

/-- A master without hot slots in a cluster that is up, with its view of the key's owner. -/
structure Sees (cl : ClusterState) (key : Bytes) (owner : NodeId) : Prop where
  cold : Cold cl
  master : cl.isSlave = false
  up : cl.stateOk = true
  owner : cl.slots (keyHashSlot key) = some owner

theorem exitOf (one : OneKey env c cmd argv key) (sees : Sees cl key owner) {q : Query}
    (route : ∀ n, 0 < n → routeSlot cl c cmd (sameScan env cl key owner n) = q) :
    (processCommand env cl c argv).exit = if q.node = some cl.myself then .called cmd argv
      else match clusterRedirectClient q.node (keyHashSlot key).val q.code with
        | some answer => .redirected answer
        | none => .faulted .panic := by
  obtain ⟨keys,read,keyed,all⟩ := one.keys
  obtain ⟨n,some,asked⟩ := querySame one.passes sees.up sees.owner read keyed all
  rw [passedExit one.passes sees.cold asked,route n some]
  rfl

theorem exitCalled (one : OneKey env c cmd argv key) (sees : Sees cl key owner)
    (home : (owner = cl.myself ∧ ((cl.migratingSlotsTo (keyHashSlot key)).isSome → env.lookupKeyRead key = true)) ∨
      (owner ≠ cl.myself ∧ (cl.importingSlotsFrom (keyHashSlot key)).isSome ∧ c.asking = true)) :
    (processCommand env cl c argv).exit = .called cmd argv := by
  have route (n : Nat) (some_ : 0 < n) : routeSlot cl c cmd (sameScan env cl key owner n) =
      ⟨some cl.myself,some (keyHashSlot key),none⟩ := by
    rw [routeSame one.passes.stays sees.master some_]
    rcases home with ⟨own,present⟩ | ⟨other,importing,asking⟩
    · by_cases marked : (cl.migratingSlotsTo (keyHashSlot key)).isSome
      · simp [own,marked,present marked]
      · simp [own,marked]
    · simp [other,importing,asking]
  rw [exitOf one sees route,if_pos rfl]

theorem exitMoved (one : OneKey env c cmd argv key) (sees : Sees cl key owner) (other : owner ≠ cl.myself)
    (closed : (cl.importingSlotsFrom (keyHashSlot key)).isSome → (c.asking || cmd.asking) = false) :
    (processCommand env cl c argv).exit = .redirected (.moved (keyHashSlot key).val owner) := by
  have route (n : Nat) (some_ : 0 < n) : routeSlot cl c cmd (sameScan env cl key owner n) =
      ⟨some owner,some (keyHashSlot key),some .moved⟩ := by
    rw [routeSame one.passes.stays sees.master some_,if_neg (fun own =>
      other own.1),if_neg fun asked => ?_,if_pos other]
    rw [closed asked.1] at asked
    exact Bool.false_ne_true asked.2
  rw [exitOf one sees route,if_neg fun same => other (Option.some.inj same)]
  rfl

theorem exitAsked (one : OneKey env c cmd argv key) (sees : Sees cl key owner) (own : owner = cl.myself) {m : NodeId}
    (marked : cl.migratingSlotsTo (keyHashSlot key) = some m) (other : m ≠ cl.myself)
      (missing : env.lookupKeyRead key = false) :
    (processCommand env cl c argv).exit = .redirected (.ask (keyHashSlot key).val m) := by
  have route (n : Nat) (some_ : 0 < n) : routeSlot cl c cmd (sameScan env cl key owner n) =
      ⟨some m,some (keyHashSlot key),some .ask⟩ := by
    rw [routeSame one.passes.stays sees.master some_,if_pos ⟨own,by rw [marked]; rfl⟩,missing,marked]
    rfl
  rw [exitOf one sees route,if_neg fun same => other (Option.some.inj same)]
  rfl

end query

section service
variable {Value Reply : Type}

def answer (net : Net Value Reply) (env : NodeId → Env) (argv : List Bytes) (n : NodeId) (c : Client) : Exit :=
  (processCommand ((net.servers n).env (env n)) (net.servers n).cluster c argv).exit

/-- A client that goes where the answers send it has its command called after so many redirections. -/
inductive Served (net : Net Value Reply) (env : NodeId → Env) (argv : List Bytes) : Nat → NodeId → Client → Prop where
  | here (cmd) {k n c} (called : answer net env argv n c = .called cmd argv) : Served net env argv k n c
  | moved {k n c s m} (away : answer net env argv n c = .redirected (.moved s m))
      (rest : Served net env argv k m { c with asking := false }) : Served net env argv (k + 1) n c
  | asked {k n c s m} (away : answer net env argv n c = .redirected (.ask s m))
      (rest : Served net env argv k m { c with asking := true }) : Served net env argv (k + 1) n c

/-- The manager marks the target first, and tells the target first that the slot is its own. -/
structure TargetFirst (slot : Slot) (source target : NodeId) (net : Net Value Reply) : Prop where
  marked : Marked slot source target net → ((net.servers target).cluster.importingSlotsFrom slot).isSome ∨
    (net.servers target).cluster.slots slot = some target
  told : (net.servers source).cluster.slots slot = some target → (net.servers target).cluster.slots slot = some target

variable {slot : Slot} {source target : NodeId} {cmds : Commands Value Reply}

theorem upPut {net : Net Value Reply} (up : ∀ n, (net.servers n).cluster.stateOk = true) {n : NodeId} {s : Server Value}
    (same : s.cluster.stateOk = (net.servers n).cluster.stateOk) (m : NodeId) :
    ((net.put n s).servers m).cluster.stateOk = true := by
  rw [putServers]
  split
  · exact same.trans (up n)
  · exact up m

theorem upQuery {net : Net Value Reply} (up : ∀ n, (net.servers n).cluster.stateOk = true) (n : NodeId) (env : Env)
    (c : Client) (argv : List Bytes) (m : NodeId) :
    ((query cmds slot net n env c argv).servers m).cluster.stateOk = true := by
  obtain ⟨status,frame⟩ := processFrame ((net.servers n).env env) (net.servers n).cluster c argv
  have same : (processCommand ((net.servers n).env env) (net.servers n).cluster c argv).cluster.stateOk =
      (net.servers n).cluster.stateOk := by rw [frame]
  simp only [query]
  split
  · simp only [call]
    split
    · exact upPut up same m
    · exact upPut up same m
  · exact upPut up same m
  · exact upPut up same m

theorem upSetslot (keys : Nat) (cl : ClusterState) (action : SetslotAction) :
    (setslot slot keys cl action).stateOk = cl.stateOk := by
  cases action with
  | migrating _ => simp only [setslot]; split <;> rfl
  | importing _ => simp only [setslot]; split <;> rfl
  | node _ => simp only [setslot,closeMigrating]; split <;> split <;> rfl

theorem upStep {net next : Net Value Reply} (up : ∀ n, (net.servers n).cluster.stateOk = true) {event : Event}
    (taken : step cmds slot source target net event = some next) : ∀ n, (next.servers n).cluster.stateOk = true := by
  cases stepWay taken with
  | query n env c argv => exact upQuery up n env c argv
  | setslot n action => exact upPut up (upSetslot _ _ action)
  | claim n owner shrunk =>
    refine upPut up ?_
    rw [clusterUpdateSlotsConfigWith]
    split <;> rfl
  | migrate => exact up
  | restored => exact upPut up rfl
  | refused => exact up
  | answered => exact upPut up rfl
  | broken => exact upPut up rfl
  | executed => exact upPut up rfl
  | lost => exact up

theorem runUp {start net : Net Value Reply} {past : List Event} (up : ∀ n, (start.servers n).cluster.stateOk = true)
    (run : Reach (Guarded (Allowed slot source target) (Takes (step cmds slot source target))) start past net) :
    ∀ n, (net.servers n).cluster.stateOk = true := by
  induction run with
  | start => exact up
  | next _ taken ih => exact upStep ih taken.2

/-- In every reachable state, a client that begins anywhere and goes where it is sent. -/
theorem redirectedServed {start net : Net Value Reply} {past : List Event} {env : NodeId → Env} {c : Client}
    {cmd : RedisCommand} {argv : List Bytes} {key : Bytes} (apart : source ≠ target)
    (fresh : Fresh (keyHashSlot key) source target start)
    (run : Reach (Guarded (Allowed (keyHashSlot key) source target) (Takes (step cmds (keyHashSlot key) source target)))
      start past net)
    (order : TargetFirst (keyHashSlot key) source target net) (up : ∀ n, (start.servers n).cluster.stateOk = true)
    (plain : cmd.asking = false) (one : ∀ n asking, OneKey (env n) { c with asking } cmd argv key) (n : NodeId) :
    Served net env argv 3 n { c with asking := false } := by
  have sound := runSound apart fresh run
  have still := runUp up run
  have sees (m owner : NodeId) (owns : (net.servers m).cluster.slots (keyHashSlot key) = some owner) :
      Sees (net.servers m).cluster key owner :=
    ⟨(sound.placed m).cold,(sound.placed m).master,still m,owns⟩
  have single (m : NodeId) (asking : Bool) : OneKey ((net.servers m).env (env m)) { c with asking } cmd argv key := by
    obtain ⟨passes,keys⟩ := one m asking
    have accepted := passes.accepted
    exact ⟨⟨passes.some,passes.quit,passes.word,passes.redirects,passes.transaction,passes.stays,
      ⟨accepted.known,accepted.arity,accepted.auth,accepted.acl⟩,passes.guard,passes.later⟩,keys⟩
  have unmarked (m : NodeId) (other : m ≠ source) : (net.servers m).cluster.migratingSlotsTo
      (keyHashSlot key) = none := by
    cases marked : (net.servers m).cluster.migratingSlotsTo (keyHashSlot key) with
    | none => rfl
    | some _ => exact absurd ((sound.placed m).migrating _ marked).1 other
  have atTarget (k : Nat) (asking : Bool)
      (open_ : (net.servers target).cluster.slots (keyHashSlot key) = some target ∨
        ((net.servers target).cluster.importingSlotsFrom (keyHashSlot key)).isSome ∧ asking = true) :
      Served net env argv k target { c with asking } := by
    rcases (sound.placed target).owner with home | home
    · rcases open_ with own | ⟨importing,asks⟩
      · exact absurd (Option.some.inj (home.symm.trans own)) apart
      · refine .here cmd (exitCalled (single target asking) (sees target source home)
          (.inr ⟨?_,importing,asks⟩))
        rw [(sound.placed target).myself]
        exact apart
    · refine .here cmd (exitCalled (single target asking) (sees target target home) (.inl ⟨?_,?_⟩))
      · rw [(sound.placed target).myself]
      · rw [unmarked target apart.symm]
        exact fun marked => absurd marked Bool.false_ne_true
  have atSource (k : Nat) : Served net env argv (k + 1) source { c with asking := false } := by
    rcases (sound.placed source).owner with home | home
    · by_cases present : ((net.servers source).cluster.migratingSlotsTo (keyHashSlot key)).isSome →
        ((net.servers source).env (env source)).lookupKeyRead key = true
      · refine .here cmd (exitCalled (single source false) (sees source source home) (.inl ⟨?_,present⟩))
        rw [(sound.placed source).myself]
      · obtain ⟨marked,missing⟩ := Classical.not_imp.mp present
        obtain ⟨m,migrating⟩ := Option.isSome_iff_exists.mp marked
        obtain rfl := ((sound.placed source).migrating m migrating).2
        refine .asked (s := (keyHashSlot key).val) (m := m) (exitAsked (single source false) (sees source source home)
          (sound.placed source).myself.symm migrating ?_ (by simpa using missing)) (atTarget k true ?_)
        · rw [(sound.placed source).myself]
          exact apart.symm
        · exact (order.marked (.inl marked)).symm.imp_right fun importing => ⟨importing,rfl⟩
    · refine .moved (s := (keyHashSlot key).val) (m := target)
        (exitMoved (single source false) (sees source target home) ?_
        fun _ => plain) (atTarget k false (.inl (order.told home)))
      rw [(sound.placed source).myself]
      exact apart.symm
  have elsewhere (k : Nat) {m : NodeId} (owner : NodeId) (other : owner ≠ m)
      (home : (net.servers m).cluster.slots (keyHashSlot key) = some owner)
      (rest : Served net env argv k owner { c with asking := false }) :
      Served net env argv (k + 1) m { c with asking := false } := by
    refine .moved (s := (keyHashSlot key).val) (m := owner)
      (exitMoved (single m false) (sees m owner home) ?_ fun _ => plain) rest
    rw [(sound.placed m).myself]
    exact other
  have fromTarget (k : Nat) : Served net env argv (k + 2) target { c with asking := false } := by
    rcases (sound.placed target).owner with home | home
    · exact elsewhere (k + 1) source apart home (atSource k)
    · exact atTarget (k + 2) false (.inl home)
  by_cases first : n = source
  · exact first ▸ atSource 2
  by_cases second : n = target
  · exact second ▸ fromTarget 1
  rcases (sound.placed n).owner with home | home
  · exact elsewhere 2 source (Ne.symm first) home (atSource 1)
  · exact elsewhere 2 target (Ne.symm second) home (fromTarget 0)

theorem onePlain (_ : NodeId) (asking : Bool) :
    OneKey (calm (clock 0)) { Client.fresh with asking } getEntry getK letterK := by
  cases asking <;> exact ⟨⟨by decide,by decide,by decide,rfl,nofun,nofun,⟨rfl,by decide,rfl,rfl⟩,by decide,rfl⟩,[letterK],
    rfl,by decide,by decide⟩

theorem redirectedServedMet : ∃ net : NotingNet, (net.servers 0).db.has letterK = false ∧
    (net.servers 1).cluster.slots (keyHashSlot letterK) = some 0 ∧
    Served net (fun _ => calm (clock 0)) getK 3 2 { Client.fresh with asking := false } := by
  have played : (replay (fun s event => if decide (Allowed (keyHashSlot letterK) 0 1 s event) then
      step noting (keyHashSlot letterK) 0 1 s event else none) settled (handover.take 9)).any (fun net =>
        !(net.servers 0).db.has letterK && (net.servers 1).cluster.slots (keyHashSlot letterK) == some 0 &&
        (net.servers 0).cluster.slots (keyHashSlot letterK) == some 0 &&
        ((net.servers 1).cluster.importingSlotsFrom (keyHashSlot letterK)).isSome) = true := by decide +kernel
  obtain ⟨net,run,seen⟩ := replayShown (fun _ _ allowed => of_decide_eq_true allowed) played
  simp only [Bool.and_eq_true,Bool.not_eq_true',beq_iff_eq] at seen
  obtain ⟨⟨⟨gone,owner⟩,source⟩,importing⟩ := seen
  refine ⟨net,gone,owner,redirectedServed (by decide) settledFresh run ⟨fun _ =>
    .inl importing,fun given => ?_⟩ (fun _ => rfl)
    rfl onePlain 2⟩
  exact absurd (Option.some.inj (source.symm.trans given)) (by decide)

end service

end HpuCache.RedirectedClient
