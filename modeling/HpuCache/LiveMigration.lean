import HpuCache.ClientQuery
import HpuCache.EventRun
import HpuCache.OwnKeys
import HpuCache.SlotMove

/-! A slot that moves to another master while clients use it. The source asks clients to go to
the target for the keys it does not have, the target serves only those who were asked to, and
MIGRATE hands the keys over in the meantime. The masters together are one store. -/
namespace HpuCache.LiveMigration
open ByteText KeySlot KeyedDict CommandCache ServerState NodeQuery ProcessCommand SlotTrace SlotIndex OwnKeys EventRun
  ClientQuery
open LocalRouting (ServedHere)
open CommandTable (calm clock textGet textSet letterK letterA)

/-- What the commands do to a database, each with its keys only. -/
structure Commands (Value Reply : Type) where
  operation : Client → RedisCommand → List Bytes → Operation (Prod.fst : Bytes × Value → Bytes) Reply
  declared : ∀ c cmd argv keys, allKeys (queryCommands c cmd argv) = some keys →
    ∀ k ∈ (operation c cmd argv).keys, k ∈ keys

structure Server (Value : Type) where
  cluster : ClusterState
  db : Store Value

/-- A MIGRATE under way: the RESTOREs that the target has still to read, and the keys whose
RESTORE it has answered with OK. -/
structure Pipeline (Value : Type) where
  replace : Bool
  pending : List (Bytes × Value)
  restored : List Bytes

structure Call where
  client : Client
  cmd : RedisCommand
  argv : List Bytes

structure Net (Value Reply : Type) where
  servers : NodeId → Server Value
  pipeline : Option (Pipeline Value)
  -- RESTOREs of a MIGRATE that broke off, with their REPLACE; the target may still read them.
  stray : List (Bool × Bytes × Value)
  -- The ASK redirections that were given, each with the keys of its command.
  asked : List (NodeId × List Bytes)
  -- The calls of the slot that were executed, and their replies.
  served : List (Call × Reply)

inductive SetslotAction where
  | migrating (n : NodeId)
  | importing (n : NodeId)
  | node (n : NodeId)

inductive Event where
  | query (n : NodeId) (env : Env) (c : Client) (argv : List Bytes)
  | setslot (n : NodeId) (action : SetslotAction)
  -- A claim of the slot; `shrunk` when the receiver is left without slots.
  | claim (n owner : NodeId) (shrunk : Bool)
  | migrate (replace : Bool) (keys : List Bytes)
  -- The target reads one RESTORE, and may refuse it.
  | restore (refused : Bool)
  | answered
  -- The connection of MIGRATE fails or times out when so many keys were answered with OK. A retry is
  -- the next MIGRATE of the same keys.
  | broken (acknowledged : Nat)
  | late (refused : Bool)

section model
variable {Value Reply : Type} (cmds : Commands Value Reply) (slot : Slot) (source target : NodeId)

def Pipeline.handed : Option (Pipeline Value) → List Bytes
  | none => []
  | some p => p.restored

def Net.put (net : Net Value Reply) (n : NodeId) (s : Server Value) : Net Value Reply :=
  { net with servers := Function.update net.servers n s }

def keysInSlot (db : Store Value) : List Bytes := (db.entries.map Prod.fst).filter fun k => keyHashSlot k = slot

def closeMigrating (keys : Nat) (cl : ClusterState) : ClusterState :=
  if keys = 0 then { cl with migratingSlotsTo := Function.update cl.migratingSlotsTo slot none } else cl

/-- SETSLOT at a master that knows the node, with the number of keys that it has in the slot. -/
def setslot (keys : Nat) (cl : ClusterState) : SetslotAction → ClusterState
  | .migrating n =>
    if cl.slots slot ≠ some cl.myself then cl
    else { cl with migratingSlotsTo := Function.update cl.migratingSlotsTo slot (some n) }
  | .importing n =>
    if cl.slots slot = some cl.myself then cl
    else { cl with importingSlotsFrom := Function.update cl.importingSlotsFrom slot (some n) }
  | .node n =>
    let cl := closeMigrating slot keys cl
    let cl := { cl with slots := Function.update cl.slots slot (some n) }
    if n = cl.myself then { cl with importingSlotsFrom := Function.update cl.importingSlotsFrom slot none } else cl

/-- `clusterUpdateSlotsConfigWith` for the one slot, with a claim of a greater epoch. -/
def clusterUpdateSlotsConfigWith (owner : NodeId) (shrunk : Bool) (s : Server Value) : Server Value :=
  if s.cluster.slots slot = some owner ∨ owner = s.cluster.myself ∨ (s.cluster.importingSlotsFrom slot).isSome then s
  else
    let dirty := s.cluster.slots slot = some s.cluster.myself ∧ !shrunk
    ⟨{ s.cluster with slots := Function.update s.cluster.slots slot (some owner) },
      if dirty then deleteAll s.db (keysInSlot slot s.db) else s.db⟩

/-- The database answers the lookups of the query. -/
def Server.env (s : Server Value) (env : Env) : Env := { env with lookupKeyRead := s.db.has }

def call (net : Net Value Reply) (n : NodeId) (s : Server Value) (c : Client) (cmd : RedisCommand)
    (argv : List Bytes) : Net Value Reply :=
  let op := cmds.operation c cmd argv
  let net := net.put n { s with db := (op.run s.db).2 }
  if op.keys.all fun k => keyHashSlot k = slot then
    { net with served := net.served ++ [(⟨c,cmd,argv⟩,(op.run s.db).1)] }
  else net

def query (net : Net Value Reply) (n : NodeId) (env : Env) (c : Client) (argv : List Bytes) : Net Value Reply :=
  let s := net.servers n
  let out := processCommand (s.env env) s.cluster c argv
  let s := { s with cluster := out.cluster }
  match out.exit with
  | .called cmd argv => call cmds slot net n s c cmd argv
  | .redirected (.ask _ node) => { net.put n s with asked := (node,commandKeys env c argv) :: net.asked }
  | _ => net.put n s

def step (net : Net Value Reply) : Event → Option (Net Value Reply)
  | .query n env c argv =>
    -- MIGRATE blocks its server.
    if n = source ∧ net.pipeline.isSome then none else some (query cmds slot net n env c argv)
  | .setslot n action =>
    let s := net.servers n
    if n = source ∧ net.pipeline.isSome then none
    else some (net.put n { s with cluster := setslot slot (keysInSlot slot s.db).length s.cluster action })
  | .claim n owner shrunk =>
    if n = source ∧ net.pipeline.isSome then none
    else some (net.put n (clusterUpdateSlotsConfigWith slot owner shrunk (net.servers n)))
  | .migrate replace keys =>
    match net.pipeline with
    | some _ => none
    | none => some { net with pipeline := some ⟨replace,keys.filterMap (net.servers source).db.find,[]⟩ }
  | .restore refused =>
    match net.pipeline with
    | some ⟨replace,e :: rest,restored⟩ =>
      let t := net.servers target
      match SlotMove.restore replace e t.db, refused with
      | some db, false => some { net.put target { t with db } with pipeline := some ⟨replace,rest,e.1 :: restored⟩ }
      | _, _ => some { net with pipeline := some ⟨replace,rest,restored⟩ }
    | _ => none
  | .answered =>
    match net.pipeline with
    | some ⟨_,[],restored⟩ =>
      let s := net.servers source
      some { net.put source { s with db := deleteAll s.db restored } with pipeline := none }
    | _ => none
  | .broken acknowledged =>
    match net.pipeline with
    | some ⟨replace,pending,restored⟩ =>
      let s := net.servers source
      let db := deleteAll s.db (restored.reverse.take acknowledged)
      some { net.put source { s with db } with
        pipeline := none
        stray := net.stray ++ pending.map fun e => (replace,e) }
    | none => none
  | .late refused =>
    match net.stray with
    | (replace,e) :: rest =>
      let t := net.servers target
      match SlotMove.restore replace e t.db, refused with
      | some db, false => some { net.put target { t with db } with stray := rest }
      | _, _ => some { net with stray := rest }
    | [] => none

/-- What each event can do to the servers and to the pipeline. -/
inductive StepWay (net : Net Value Reply) : Event → Net Value Reply → Prop
  | query (n : NodeId) (env : Env) (c : Client) (argv : List Bytes) (idle : ¬ (n = source ∧ net.pipeline.isSome)) :
      StepWay net (.query n env c argv) (query cmds slot net n env c argv)
  | setslot (n : NodeId) (action : SetslotAction) : StepWay net (.setslot n action)
      (net.put n { net.servers n with
        cluster := setslot slot (keysInSlot slot (net.servers n).db).length (net.servers n).cluster action })
  | claim (n owner : NodeId) (shrunk : Bool) : StepWay net (.claim n owner shrunk)
      (net.put n (clusterUpdateSlotsConfigWith slot owner shrunk (net.servers n)))
  | migrate (replace : Bool) (keys : List Bytes) (idle : net.pipeline = none) : StepWay net (.migrate replace keys)
      { net with pipeline := some ⟨replace,keys.filterMap (net.servers source).db.find,[]⟩ }
  | restored {replace : Bool} {e : Bytes × Value} {rest : List (Bytes × Value)} {restored : List Bytes} {db : Store Value}
      (moving : net.pipeline = some ⟨replace,e :: rest,restored⟩)
      (put : SlotMove.restore replace e (net.servers target).db = some db) : StepWay net (.restore false)
      { net.put target { net.servers target with db } with pipeline := some ⟨replace,rest,e.1 :: restored⟩ }
  | refused (refused : Bool) {replace : Bool} {e : Bytes × Value} {rest : List (Bytes × Value)} {restored : List Bytes}
      (moving : net.pipeline = some ⟨replace,e :: rest,restored⟩) : StepWay net (.restore refused)
      { net with pipeline := some ⟨replace,rest,restored⟩ }
  | answered {replace : Bool} {restored : List Bytes} (moving : net.pipeline = some ⟨replace,[],restored⟩) :
      StepWay net .answered { net.put source
        { net.servers source with db := deleteAll (net.servers source).db restored } with pipeline := none }
  | broken (acknowledged : Nat) {replace : Bool} {pending : List (Bytes × Value)} {restored : List Bytes}
      (moving : net.pipeline = some ⟨replace,pending,restored⟩) : StepWay net (.broken acknowledged)
      { net.put source { net.servers source with
          db := deleteAll (net.servers source).db (restored.reverse.take acknowledged) } with
        pipeline := none
        stray := net.stray ++ pending.map fun e => (replace,e) }
  | executed {replace : Bool} {e : Bytes × Value} {rest : List (Bool × Bytes × Value)} {db : Store Value}
      (waiting : net.stray = (replace,e) :: rest)
      (put : SlotMove.restore replace e (net.servers target).db = some db) : StepWay net (.late false)
      { net.put target { net.servers target with db } with stray := rest }
  | lost (refused : Bool) {replace : Bool} {e : Bytes × Value} {rest : List (Bool × Bytes × Value)}
      (waiting : net.stray = (replace,e) :: rest) : StepWay net (.late refused) { net with stray := rest }

variable {cmds slot source target}

theorem stepWay {net next : Net Value Reply} {event : Event} (taken : step cmds slot source target net event = some next) :
    StepWay cmds slot source target net event next := by
  cases event with
  | query n env c argv =>
    simp only [step] at taken
    split at taken
    · contradiction
    · rename_i idle
      cases Option.some.inj taken
      exact .query n env c argv idle
  | setslot n action =>
    simp only [step] at taken
    split at taken
    · contradiction
    · cases Option.some.inj taken
      exact .setslot n action
  | claim n owner shrunk =>
    simp only [step] at taken
    split at taken
    · contradiction
    · cases Option.some.inj taken
      exact .claim n owner shrunk
  | migrate replace keys =>
    simp only [step] at taken
    split at taken
    · contradiction
    · rename_i idle
      cases Option.some.inj taken
      exact .migrate replace keys idle
  | restore refused =>
    simp only [step] at taken
    split at taken
    · rename_i moving
      split at taken
      · rename_i put
        cases Option.some.inj taken
        exact .restored moving put
      · cases Option.some.inj taken
        exact .refused _ moving
    · contradiction
  | answered =>
    simp only [step] at taken
    split at taken
    · rename_i moving
      cases Option.some.inj taken
      exact .answered moving
    · contradiction
  | broken acknowledged =>
    simp only [step] at taken
    split at taken
    · rename_i moving
      cases Option.some.inj taken
      exact .broken acknowledged moving
    · contradiction
  | late refused =>
    simp only [step] at taken
    split at taken
    · rename_i waiting
      split at taken
      · rename_i put
        cases Option.some.inj taken
        exact .executed waiting put
      · cases Option.some.inj taken
        exact .lost _ waiting
    · contradiction

end model

section run
variable {Value Reply : Type} (slot : Slot) (source target : NodeId)

/-- The source has been told to ask clients away, or has given the slot up. -/
def Marked (net : Net Value Reply) : Prop :=
  ((net.servers source).cluster.migratingSlotsTo slot).isSome ∨ (net.servers source).cluster.slots slot = some target

/-- What the clients, the manager and the network do: clients send ASKING only where an ASK told them to,
the manager gives the slot to the target when it is marked and has no keys left at the source, and a
MIGRATE that breaks off has read the answer to every RESTORE that the target executed or will execute. -/
def Allowed (net : Net Value Reply) : Event → Prop
  | .query n env c argv => Ordinary env c argv ∧ (c.asking = true → (n,commandKeys env c argv) ∈ net.asked)
  | .setslot n (.migrating m) => n = source ∧ m = target
  | .setslot n (.importing m) => n = target ∧ m = source
  | .setslot _ (.node m) => m = target ∧ Marked slot source target net ∧ net.pipeline.isNone ∧
      keysInSlot slot (net.servers source).db = []
  | .claim n owner _ => (owner = target ∧ (net.servers target).cluster.slots slot = some target) ∨
      (owner = source ∧ n ≠ source ∧ n ≠ target)
  | .migrate _ keys => Marked slot source target net ∧ keys.Nodup ∧ ∀ k ∈ keys, keyHashSlot k = slot
  | .restore _ => True
  | .answered => True
  | .broken acknowledged => (Pipeline.handed net.pipeline).length ≤ acknowledged
  | .late refused => refused = true

/-- The view of the slot that one node may have. -/
structure Placed (n : NodeId) (cl : ClusterState) : Prop where
  myself : cl.myself = n
  master : cl.isSlave = false
  cold : Cold cl
  owner : cl.slots slot = some source ∨ cl.slots slot = some target
  migrating : ∀ m, cl.migratingSlotsTo slot = some m → n = source ∧ m = target
  importing : (cl.importingSlotsFrom slot).isSome → n = target

variable (cmds : Commands Value Reply)

def Call.operation (call : Call) : Operation (Prod.fst : Bytes × Value → Bytes) Reply :=
  cmds.operation call.client call.cmd call.argv

/-- The calls of the slot on one database. -/
def oneStore (db : Store Value) (net : Net Value Reply) : List Reply × Store Value :=
  serial (net.served.map fun s => s.1.operation cmds) db

structure Sound (db : Store Value) (net : Net Value Reply) : Prop where
  placed : ∀ n, Placed slot source target n (net.servers n).cluster
  before : ¬ Marked slot source target net → (∀ k, keyHashSlot k = slot → (net.servers target).db.find k = none) ∧
    net.pipeline = none ∧ (net.servers target).cluster.slots slot = some source
  closed : (net.servers target).cluster.slots slot = some target ∨
    (net.servers source).cluster.slots slot = some target →
    ∀ k, keyHashSlot k = slot → (net.servers source).db.find k = none
  asked : ∀ t ∈ net.asked, (∀ k ∈ t.2, keyHashSlot k = slot) → Marked slot source target net ∧
    ∃ k ∈ t.2, (net.servers source).db.find k = none
  pending : ∀ p, net.pipeline = some p → (p.pending.map Prod.fst).Nodup ∧ ∀ e ∈ p.pending, keyHashSlot e.1 = slot ∧
    e.1 ∉ p.restored ∧ (net.servers source).db.find e.1 = some e
  halves : Halves (fun k => keyHashSlot k = slot) (oneStore cmds db net).2 (net.servers source).db
    (net.servers target).db
    (Pipeline.handed net.pipeline)
  replies : net.served.map Prod.snd = (oneStore cmds db net).1

end run

section keeps
variable {Value Reply : Type} {slot : Slot} {source target : NodeId} {cmds : Commands Value Reply} {db : Store Value}
  {net : Net Value Reply}

theorem putServers (net : Net Value Reply) (n m : NodeId) (s : Server Value) :
    (net.put n s).servers m = if m = n then s else net.servers m := Function.update_apply _ _ _ _

theorem keysInSlotNil (db : Store Value) :
    keysInSlot slot db = [] ↔ ∀ k, keyHashSlot k = slot → db.find k = none := by
  simp only [keysInSlot,List.filter_eq_nil_iff,List.mem_map,forall_exists_index,and_imp,decide_eq_true_eq,Dict.findNone]
  constructor
  · rintro none k inside e member rfl
    exact none _ e member rfl inside
  · rintro none k e member rfl inside
    exact none _ inside e member rfl

/-- The same view of the slot, as far as this development looks at it. -/
structure SameView (slot : Slot) (s t : Server Value) : Prop where
  finds : ∀ k, keyHashSlot k = slot → s.db.find k = t.db.find k
  slots : s.cluster.slots slot = t.cluster.slots slot
  migrating : s.cluster.migratingSlotsTo slot = t.cluster.migratingSlotsTo slot

theorem SameView.refl (s : Server Value) : SameView slot s s := ⟨fun _ _ => rfl,rfl,rfl⟩

theorem putView {n : NodeId} {s : Server Value} (same : n = source ∨ n = target → SameView slot s (net.servers n))
    (m : NodeId) (which : m = source ∨ m = target) : SameView slot ((net.put n s).servers m) (net.servers m) := by
  rw [putServers]
  split
  · next here => exact here ▸ same (here ▸ which)
  · exact .refl _

/-- One node changed its view of the slot, and no key of it. -/
theorem soundViews (sound : Sound slot source target cmds db net) {n : NodeId} {s : Server Value}
    (placed : Placed slot source target n s.cluster)
    (finds : n = source ∨ n = target → ∀ k, keyHashSlot k = slot → s.db.find k = (net.servers n).db.find k)
    (marks : Marked slot source target net → Marked slot source target (net.put n s))
    (before : ¬ Marked slot source target (net.put n s) →
      ((net.put n s).servers target).cluster.slots slot = (net.servers target).cluster.slots slot)
    (closed : ((net.put n s).servers target).cluster.slots slot = some target ∨
      ((net.put n s).servers source).cluster.slots slot = some target →
        ∀ k, keyHashSlot k = slot → (net.servers source).db.find k = none) :
    Sound slot source target cmds db (net.put n s) := by
  have still (m : NodeId) (which : m = source ∨ m = target) (k : Bytes) (inside : keyHashSlot k = slot) :
      ((net.put n s).servers m).db.find k = (net.servers m).db.find k := by
    rw [putServers]
    split
    · next here => exact here ▸ finds (here ▸ which) k inside
    · rfl
  have first := still source (.inl rfl)
  have second := still target (.inr rfl)
  refine ⟨fun m => ?_,fun fresh => ?_,fun given k inside => ?_,fun t member own => ?_,fun p moving => ?_,
    sound.halves.others first second,sound.replies⟩
  · rw [putServers]
    split
    · next here => exact here ▸ placed
    · exact sound.placed m
  · obtain ⟨absent,idle,owner⟩ := sound.before (fun now => fresh (marks now))
    exact ⟨fun k inside => (second k inside).trans (absent k inside),idle,(before fresh).trans owner⟩
  · exact (first k inside).trans (closed given k inside)
  · obtain ⟨now,k,inside,missing⟩ := sound.asked t member own
    exact ⟨marks now,k,inside,(first k (own k inside)).trans missing⟩
  · obtain ⟨distinct,all⟩ := sound.pending p moving
    refine ⟨distinct,fun e member => ?_⟩
    obtain ⟨inside,fresh,here⟩ := all e member
    exact ⟨inside,fresh,(first e.1 inside).trans here⟩

/-- One node changed, and its part in the transfer did not. -/
theorem soundServer (sound : Sound slot source target cmds db net) {n : NodeId} {s : Server Value}
    (placed : Placed slot source target n s.cluster)
    (same : n = source ∨ n = target → SameView slot s (net.servers n)) :
    Sound slot source target cmds db (net.put n s) := by
  have first := putView same source (.inl rfl)
  have second := putView same target (.inr rfl)
  refine soundViews sound placed (fun which => (same which).finds) (fun marked => ?_) (fun _ => second.slots)
    fun given => sound.closed ?_
  · rwa [Marked,first.slots,first.migrating]
  · rwa [first.slots,second.slots] at given

theorem placedQuery {n : NodeId} {cl : ClusterState} (placed : Placed slot source target n cl) (env : Env) (c : Client)
    (argv : List Bytes) : Placed slot source target n (processCommand env cl c argv).cluster ∧
      (processCommand env cl c argv).cluster.slots = cl.slots ∧
      (processCommand env cl c argv).cluster.migratingSlotsTo = cl.migratingSlotsTo := by
  obtain ⟨status,frame⟩ := processFrame env cl c argv
  have cold : Cold (processCommand env cl c argv).cluster := by
    intro s
    have kept := (processTrace env cl c argv s).2
    rw [kept.copied,kept.have_,kept.copying]
    exact placed.cold s
  rw [frame] at cold ⊢
  exact ⟨⟨placed.myself,placed.master,cold,placed.owner,placed.migrating,placed.importing⟩,rfl,rfl⟩

theorem soundAsked (sound : Sound slot source target cmds db net) {t : NodeId × List Bytes}
    (own : (∀ k ∈ t.2, keyHashSlot k = slot) → Marked slot source target net ∧
      ∃ k ∈ t.2, (net.servers source).db.find k = none) :
    Sound slot source target cmds db { net with asked := t :: net.asked } := by
  refine ⟨sound.placed,sound.before,sound.closed,?_,sound.pending,sound.halves,sound.replies⟩
  intro u member inside
  rcases List.mem_cons.mp member with rfl | old
  · exact own inside
  · exact sound.asked u old inside

theorem askedSound (sound : Sound slot source target cmds db net) {n : NodeId} {env : Env} {keys : List Bytes}
    (away : AskedAway ((net.servers n).env env) (net.servers n).cluster keys)
      (inside : ∀ k ∈ keys, keyHashSlot k = slot) :
    Marked slot source target net ∧ ∃ k ∈ keys, (net.servers source).db.find k = none := by
  obtain ⟨s,all,_,marked,k,member,missing⟩ := away
  obtain rfl : s = slot := (all k member).symm.trans (inside k member)
  obtain ⟨m,migrating⟩ := Option.isSome_iff_exists.mp marked
  obtain ⟨rfl,_⟩ := (sound.placed n).migrating m migrating
  refine ⟨.inl marked,k,member,?_⟩
  simp only [Server.env,Dict.hasFind] at missing
  simpa using missing

/-- Where the keys of a command of the slot are served. -/
inductive Home (slot : Slot) (source target : NodeId) (n : NodeId) (s : Server Value) (c : Client) (keys : List Bytes) :
    Prop where
  | source (here : n = source) (owner : s.cluster.slots slot = some source)
      (present : (s.cluster.migratingSlotsTo slot).isSome → ∀ k ∈ keys, (s.db.find k).isSome)
  | owner (here : n = target) (owner : s.cluster.slots slot = some target)
  | asked (here : n = target) (asking : c.asking = true)
      (present : (∃ a ∈ keys, ∃ b ∈ keys, a ≠ b) → ∀ k ∈ keys, (s.db.find k).isSome)

theorem calledHome {n : NodeId} {s : Server Value} {env : Env} {c : Client} {cmd : RedisCommand}
    {argv keys : List Bytes}
    (apart : source ≠ target) (placed : Placed slot source target n s.cluster) (ordinary : Ordinary env c argv)
    (known : env.commands (argv.headD []) = some cmd)
    (way : ServedHere (s.env env) s.cluster c cmd slot keys ∨
      (s.cluster.slots slot = some s.cluster.myself ∧ s.cluster.migratingSlotsTo slot = some s.cluster.myself)) :
    Home slot source target n s c keys := by
  obtain ⟨stays,unasked⟩ := ordinary.cmd cmd known
  have owned (owner : s.cluster.slots slot = some n) (present : n = source →
      (s.cluster.migratingSlotsTo slot).isSome → ∀ k ∈ keys, (s.db.find k).isSome) :
        Home slot source target n s c keys := by
    rcases placed.owner with first | second
    · obtain rfl := Option.some.inj (owner.symm.trans first)
      exact .source rfl first (present rfl)
    · obtain rfl := Option.some.inj (owner.symm.trans second)
      exact .owner rfl second
  rcases way with served | ⟨owner,itself⟩
  · cases served with
    | owned owner present =>
      refine owned (placed.myself ▸ owner) fun _ marked k member => ?_
      rw [← Dict.hasFind]
      exact present marked stays k member
    | migrate _ moves => exact absurd moves stays
    | asked marked asking present =>
      refine .asked (placed.importing marked) (asking.resolve_right (by simp [unasked])) fun differ k member => ?_
      rw [← Dict.hasFind]
      exact present differ k member
    | replica _ _ slave => simp [placed.master] at slave
  · rw [placed.myself] at itself
    obtain ⟨first,second⟩ := placed.migrating n itself
    exact absurd (first.symm.trans second) apart

/-- One more call on the one database. -/
theorem oneStoreNext (call : Call) (reply : Reply) (servers : NodeId → Server Value) :
    oneStore cmds db { net with servers, served := net.served ++ [(call,reply)] } =
      ((oneStore cmds db net).1 ++ [((call.operation cmds).run (oneStore cmds db net).2).1],
        ((call.operation cmds).run (oneStore cmds db net).2).2) := by
  simp only [oneStore,List.map_append,List.map_cons,List.map_nil]
  exact serialNext _ _ _

theorem markedServer {n : NodeId} {s : Server Value}
    (slots : s.cluster.slots slot = (net.servers n).cluster.slots slot)
    (migrating : s.cluster.migratingSlotsTo slot = (net.servers n).cluster.migratingSlotsTo slot) (m : NodeId) :
    ((net.put n s).servers m).cluster.slots slot = (net.servers m).cluster.slots slot ∧
      ((net.put n s).servers m).cluster.migratingSlotsTo slot = (net.servers m).cluster.migratingSlotsTo slot := by
  rw [putServers]
  split
  · next here => exact here ▸ ⟨slots,migrating⟩
  · exact ⟨rfl,rfl⟩

theorem placedPut (sound : Sound slot source target cmds db net) {n : NodeId} {s : Server Value}
    (placed : Placed slot source target n s.cluster) (m : NodeId) :
    Placed slot source target m ((net.put n s).servers m).cluster := by
  rw [putServers]
  split
  · next here => exact here ▸ placed
  · exact sound.placed m

/-- A call of the slot, with what it finds at its server and leaves there. -/
structure Ran (slot : Slot) (net : Net Value Reply) (n : NodeId) (s : Server Value)
    (op : Operation (Prod.fst : Bytes × Value → Bytes) Reply) :
    Prop where
  db : s.db = (op.run (net.servers n).db).2
  slots : s.cluster.slots slot = (net.servers n).cluster.slots slot
  migrating : s.cluster.migratingSlotsTo slot = (net.servers n).cluster.migratingSlotsTo slot

theorem soundSource (sound : Sound slot source target cmds db net) (apart : source ≠ target)
    (idle : net.pipeline = none)
    {s : Server Value} (call : Call) (placed : Placed slot source target source s.cluster)
    (ran : Ran slot net source s (call.operation cmds))
      (own : ∀ k ∈ (call.operation cmds).keys, keyHashSlot k = slot)
    (keyed : (call.operation cmds).keys ≠ []) (owner : (net.servers source).cluster.slots slot = some source)
    (present : ((net.servers source).cluster.migratingSlotsTo slot).isSome →
      ∀ k ∈ (call.operation cmds).keys, ((net.servers source).db.find k).isSome) :
    Sound slot source target cmds db { net.put source s with
      served := net.served ++ [(call,((call.operation cmds).run (net.servers source).db).1)] } := by
  have views := markedServer ran.slots ran.migrating
  have there : (net.put source s).servers target = net.servers target := by rw [putServers,if_neg apart.symm]
  have here : (net.put source s).servers source = s := by rw [putServers,if_pos rfl]
  have held (marked : Marked slot source target net) :
      ∀ k ∈ (call.operation cmds).keys, ((net.servers source).db.find k).isSome :=
    present (marked.resolve_right fun given => apart (Option.some.inj (owner.symm.trans given)))
  have absent : ∀ k ∈ (call.operation cmds).keys, (net.servers target).db.find k = none := by
    intro k member
    by_cases marked : Marked slot source target net
    · exact sound.halves.apart k (own k member) (by rw [idle]; exact List.not_mem_nil) (held marked k member)
    · exact (sound.before marked).1 k (own k member)
  have halves := sound.halves
  rw [idle] at halves
  obtain ⟨reply,joined⟩ := halves.atFirst (call.operation cmds) own absent
  refine ⟨placedPut sound placed,fun fresh => ?_,fun given => ?_,fun t member inside => ?_,fun p moving => ?_,?_,?_⟩
  · rw [there]
    refine sound.before fun marked => fresh ?_
    rwa [Marked,(views source).1,(views source).2]
  · rw [(views source).1,(views target).1] at given
    obtain ⟨k,member⟩ := List.exists_mem_of_ne_nil _ keyed
    have none := sound.closed given k (own k member)
    have marked : Marked slot source target net := by
      by_contra fresh
      rcases given with given | given
      · exact apart (Option.some.inj ((sound.before fresh).2.2.symm.trans given))
      · exact apart (Option.some.inj (owner.symm.trans given))
    have some := held marked k member
    rw [none] at some
    contradiction
  · obtain ⟨marked,k,member,none⟩ := sound.asked t member inside
    refine ⟨by rwa [Marked,(views source).1,(views source).2],k,member,?_⟩
    have other : k ∉ (call.operation cmds).keys := by
      intro touched
      have some := held marked k touched
      rw [none] at some
      contradiction
    rw [here,ran.db,(call.operation cmds).writes _ k other,none]
  · have none : (none : Option (Pipeline Value)) = some p := idle.symm.trans moving
    contradiction
  · rw [Net.put,oneStoreNext,← Net.put,here,there,ran.db]
    show Halves _ _ _ _ (Pipeline.handed net.pipeline)
    rw [idle]
    exact joined
  · rw [Net.put,oneStoreNext,List.map_append,← reply,sound.replies]
    rfl

theorem soundTarget (sound : Sound slot source target cmds db net) (apart : source ≠ target)
    {s : Server Value} (call : Call)
    (placed : Placed slot source target target s.cluster) (ran : Ran slot net target s (call.operation cmds))
    (own : ∀ k ∈ (call.operation cmds).keys, keyHashSlot k = slot) (marked : Marked slot source target net)
    (gone : ∀ k ∈ (call.operation cmds).keys, k ∈ Pipeline.handed net.pipeline ∨
      (net.servers source).db.find k = none) :
    Sound slot source target cmds db { net.put target s with
      served := net.served ++ [(call,((call.operation cmds).run (net.servers target).db).1)] } := by
  have views := markedServer ran.slots ran.migrating
  have there : (net.put target s).servers source = net.servers source := by rw [putServers,if_neg apart]
  have here : (net.put target s).servers target = s := by rw [putServers,if_pos rfl]
  obtain ⟨reply,joined⟩ := sound.halves.atSecond (call.operation cmds) own gone
  have still : Marked slot source target (net.put target s) := by rwa [Marked,there]
  refine ⟨placedPut sound placed,fun fresh => absurd still fresh,fun given => ?_,fun t member inside => ?_,
    fun p moving => ?_,?_,?_⟩
  · rw [(views source).1,(views target).1] at given
    rw [there]
    exact sound.closed given
  · obtain ⟨_,k,missing⟩ := sound.asked t member inside
    exact ⟨still,k,by rwa [there]⟩
  · rw [there]
    exact sound.pending p moving
  · rw [Net.put,oneStoreNext,← Net.put,here,there,ran.db]
    exact joined
  · rw [Net.put,oneStoreNext,List.map_append,← reply,sound.replies]
    rfl

theorem soundKeyless (sound : Sound slot source target cmds db net) (call : Call)
    (keyless : (call.operation cmds).keys = [])
    (s : Store Value) :
    Sound slot source target cmds db { net with served := net.served ++ [(call,((call.operation cmds).run s).1)] } := by
  obtain ⟨reply,joined⟩ := sound.halves.keyless (call.operation cmds) keyless s
  refine ⟨sound.placed,sound.before,sound.closed,sound.asked,sound.pending,?_,?_⟩
  · rw [oneStoreNext]
    exact joined
  · rw [oneStoreNext,List.map_append,← reply,sound.replies]
    rfl

theorem soundCall (sound : Sound slot source target cmds db net) (apart : source ≠ target) {n : NodeId} {env : Env}
    {c : Client} {cmd : RedisCommand} {argv : List Bytes} {cluster : ClusterState}
    (idle : ¬ (n = source ∧ net.pipeline.isSome)) (placed : Placed slot source target n cluster)
    (slots : cluster.slots = (net.servers n).cluster.slots)
    (migrating : cluster.migratingSlotsTo = (net.servers n).cluster.migratingSlotsTo)
    (ordinary : Ordinary env c argv) (asking : c.asking = true → (n,commandKeys env c argv) ∈ net.asked)
    (known : env.commands (argv.headD []) = some cmd)
    (here : CalledHere ((net.servers n).env env) (net.servers n).cluster c cmd argv) :
    Sound slot source target cmds db (call cmds slot net n { net.servers n with cluster } c cmd argv) := by
  obtain ⟨keys,read,way⟩ := here
  have declared := cmds.declared c cmd argv keys read
  have ran : Ran slot net n ⟨cluster,((cmds.operation c cmd argv).run
      (net.servers n).db).2⟩ (cmds.operation c cmd argv) :=
    ⟨rfl,congrFun slots slot,congrFun migrating slot⟩
  have untouched (out : ∀ k ∈ (cmds.operation c cmd argv).keys, keyHashSlot k ≠ slot) :
      Sound slot source target cmds db
        (net.put n ⟨cluster,((cmds.operation c cmd argv).run (net.servers n).db).2⟩) :=
    soundServer sound placed fun _ =>
      ⟨fun k inside => (cmds.operation c cmd argv).writes _ k fun member => out k member inside,ran.slots,ran.migrating⟩
  rw [call]
  by_cases own : ∀ k ∈ (cmds.operation c cmd argv).keys, keyHashSlot k = slot
  · rw [if_pos (by simpa using own)]
    by_cases keyed : (cmds.operation c cmd argv).keys = []
    · exact soundKeyless (untouched (by simp [keyed])) ⟨c,cmd,argv⟩ keyed _
    · obtain ⟨k,member⟩ := List.exists_mem_of_ne_nil _ keyed
      obtain ⟨s,all,way⟩ := way (List.ne_nil_of_mem (declared k member))
      obtain rfl : s = slot := (all k (declared k member)).symm.trans (own k member)
      cases calledHome apart (sound.placed n) ordinary known way with
      | source at_ owner present =>
        subst at_
        have free : net.pipeline = none := by simpa using idle
        exact soundSource sound apart free ⟨c,cmd,argv⟩ placed ran own keyed owner
          fun marked k member => present marked k (declared k member)
      | owner at_ owner =>
        subst at_
        have marked : Marked s source n net := by
          by_contra fresh
          exact apart (Option.some.inj ((sound.before fresh).2.2.symm.trans owner))
        exact soundTarget sound apart ⟨c,cmd,argv⟩ placed ran own marked
          fun k member => .inr (sound.closed (.inl owner) k (own k member))
      | asked at_ asks present =>
        subst at_
        have named : commandKeys env c argv = keys := by
          simp only [commandKeys,known,Option.bind_some,read,Option.getD_some]
        obtain ⟨marked,lost,missing,none⟩ := sound.asked _ (asking asks) (by rwa [named])
        rw [named] at missing
        refine soundTarget sound apart ⟨c,cmd,argv⟩ placed ran own marked fun k member => ?_
        by_cases same : k = lost
        · exact .inr (same ▸ none)
        · have some := present ⟨k,declared k member,lost,missing,same⟩ k (declared k member)
          by_cases given : k ∈ Pipeline.handed net.pipeline
          · exact .inl given
          · refine .inr (Option.not_isSome_iff_eq_none.mp fun held => ?_)
            rw [sound.halves.apart k (own k member) given held] at some
            contradiction
  · rw [if_neg (by simpa using own)]
    refine untouched fun k member inside => own fun j other => ?_
    obtain ⟨s,all,_⟩ := way (List.ne_nil_of_mem (declared k member))
    rw [all j (declared j other),← all k (declared k member),inside]

theorem soundQuery (sound : Sound slot source target cmds db net) (apart : source ≠ target) {n : NodeId} {env : Env}
    {c : Client} {argv : List Bytes} (idle : ¬ (n = source ∧ net.pipeline.isSome)) (ordinary : Ordinary env c argv)
    (asking : c.asking = true → (n,commandKeys env c argv) ∈ net.asked) :
    Sound slot source target cmds db (query cmds slot net n env c argv) := by
  have before := sound.placed n
  have usual : Ordinary ((net.servers n).env env) c argv :=
    ⟨ordinary.enabled,ordinary.redirects,ordinary.client,ordinary.bare,ordinary.word,ordinary.moves,ordinary.cmd⟩
  obtain ⟨placed,slots,migrating⟩ := placedQuery before ((net.servers n).env env) c argv
  have view : SameView slot { net.servers n with
      cluster := (processCommand ((net.servers n).env env) (net.servers n).cluster c argv).cluster } (net.servers n) :=
    ⟨fun _ _ => rfl,congrFun slots slot,congrFun migrating slot⟩
  simp only [query]
  split
  · next cmd argv' called =>
    obtain ⟨rfl,known,here⟩ := calledHere before.cold usual called
    exact soundCall sound apart idle placed slots migrating ordinary asking known here
  · next away =>
    have missing := askedAway before.cold away
    exact soundServer (soundAsked sound (t := (_,_)) (askedSound sound missing)) placed fun _ => view
  · exact soundServer sound placed fun _ => view

/-- The node sees the slot with the target, which is right as the source has no key of it. -/
theorem soundGiven (sound : Sound slot source target cmds db net) {n : NodeId} {s : Server Value}
    (placed : Placed slot source target n s.cluster)
    (finds : n = source ∨ n = target → ∀ k, keyHashSlot k = slot → s.db.find k = (net.servers n).db.find k)
    (given : s.cluster.slots slot = some target) (marked : Marked slot source target net)
    (gone : ∀ k, keyHashSlot k = slot → (net.servers source).db.find k = none) :
    Sound slot source target cmds db (net.put n s) := by
  have still : Marked slot source target (net.put n s) := by
    rw [Marked,putServers]
    split
    · exact .inr given
    · exact marked
  exact soundViews sound placed finds (fun _ => still) (fun fresh => absurd still fresh) fun _ => gone

theorem placedNode {n : NodeId} {cl : ClusterState} (placed : Placed slot source target n cl) (keys : Nat) :
    Placed slot source target n (setslot slot keys cl (.node target)) ∧
      (setslot slot keys cl (.node target)).slots slot = some target := by
  have cleared : Placed slot source target n (closeMigrating slot keys cl) := by
    unfold closeMigrating
    split
    · exact ⟨placed.myself,placed.master,placed.cold,placed.owner,fun k set => by simp at set,placed.importing⟩
    · exact placed
  simp only [setslot]
  split
  · exact ⟨⟨cleared.myself,cleared.master,cleared.cold,.inr (by simp),cleared.migrating,fun set =>
      by simp at set⟩,by simp⟩
  · exact ⟨⟨cleared.myself,cleared.master,cleared.cold,.inr (by simp),cleared.migrating,cleared.importing⟩,by simp⟩

theorem soundSetslot (sound : Sound slot source target cmds db net) (apart : source ≠ target) {n : NodeId}
    {action : SetslotAction} (allowed : Allowed slot source target net (.setslot n action)) :
    Sound slot source target cmds db (net.put n { net.servers n with
      cluster := setslot slot (keysInSlot slot (net.servers n).db).length (net.servers n).cluster action }) := by
  have placed := sound.placed n
  cases action with
  | migrating m =>
    obtain ⟨rfl,rfl⟩ := allowed
    simp only [setslot]
    split
    · exact soundServer sound placed fun _ => .refl _
    · refine soundViews sound ?_ (fun _ _ _ => rfl) (fun _ => .inl ?_) (fun _ => ?_) fun given => sound.closed ?_
      · exact ⟨placed.myself,placed.master,placed.cold,placed.owner,fun k set =>
          by simpa using set.symm,placed.importing⟩
      · rw [putServers,if_pos rfl]
        simp
      · rw [putServers,if_neg apart.symm]
      · rwa [putServers,putServers,if_pos rfl,if_neg apart.symm] at given
  | importing m =>
    obtain ⟨rfl,rfl⟩ := allowed
    simp only [setslot]
    split
    · exact soundServer sound placed fun _ => .refl _
    · refine soundServer sound ?_ fun _ => ⟨fun _ _ => rfl,rfl,rfl⟩
      exact ⟨placed.myself,placed.master,placed.cold,placed.owner,placed.migrating,fun _ => rfl⟩
  | node m =>
    obtain ⟨rfl,marked,_,empty⟩ := allowed
    obtain ⟨moved,given⟩ := placedNode placed (keysInSlot slot (net.servers n).db).length
    exact soundGiven sound moved (fun _ _ _ => rfl) given marked ((keysInSlotNil _).mp empty)

theorem soundClaim (sound : Sound slot source target cmds db net) (apart : source ≠ target) {n owner : NodeId}
    {shrunk : Bool} (allowed : Allowed slot source target net (.claim n owner shrunk)) :
    Sound slot source target cmds db (net.put n (clusterUpdateSlotsConfigWith slot owner shrunk (net.servers n))) := by
  have placed := sound.placed n
  simp only [clusterUpdateSlotsConfigWith]
  split
  · exact soundServer sound placed fun _ => .refl _
  · next changes =>
    rcases allowed with ⟨rfl,given⟩ | ⟨rfl,other,third⟩
    · have gone := sound.closed (.inl given)
      refine soundGiven sound ⟨placed.myself,placed.master,placed.cold,.inr (by simp),placed.migrating,placed.importing⟩
        ?_ (by simp) ?_ gone
      · rintro (rfl | rfl) k inside
        · split
          · rw [findDeleteAll,gone k inside,ite_self]
          · rfl
        · exact absurd (.inl given) changes
      · by_contra fresh
        exact apart (Option.some.inj ((sound.before fresh).2.2.symm.trans given))
    · refine soundServer sound ⟨placed.myself,placed.master,placed.cold,.inl
        (by simp),placed.migrating,placed.importing⟩ ?_
      rintro (rfl | rfl)
      · exact absurd rfl other
      · exact absurd rfl third

theorem soundMigrate (sound : Sound slot source target cmds db net) {replace : Bool} {keys : List Bytes}
    (idle : net.pipeline = none) (allowed : Allowed slot source target net (.migrate replace keys)) :
    Sound slot source target cmds db { net with
      pipeline := some ⟨replace,keys.filterMap (net.servers source).db.find,[]⟩ } := by
  obtain ⟨marked,distinct,inside⟩ := allowed
  refine ⟨sound.placed,fun fresh => absurd marked fresh,sound.closed,sound.asked,fun p moving => ?_,?_,sound.replies⟩
  · cases Option.some.inj moving
    refine ⟨?_,fun e member => ?_⟩
    · rw [SlotMove.presentKeys]
      exact distinct.filter _
    · obtain ⟨k,listed,found⟩ := List.mem_filterMap.mp member
      obtain ⟨_,rfl⟩ := Dict.findMem found
      exact ⟨inside _ listed,List.not_mem_nil,found⟩
  · have halves := sound.halves
    rwa [idle] at halves

theorem soundRestore (sound : Sound slot source target cmds db net) (apart : source ≠ target) {p : Pipeline Value}
    {e : Bytes × Value} {rest : List (Bytes × Value)} (moving : net.pipeline = some p) (front : p.pending = e :: rest) :
    Sound slot source target cmds db { net with pipeline := some ⟨p.replace,rest,p.restored⟩ } ∧
      ∃ t, SlotMove.restore p.replace e (net.servers target).db = some t ∧
        Sound slot source target cmds db { net.put target { net.servers target with db := t } with
          pipeline := some ⟨p.replace,rest,e.1 :: p.restored⟩ } := by
  have marked : Marked slot source target net := by
    by_contra fresh
    have idle := (sound.before fresh).2.1
    rw [moving] at idle
    contradiction
  have halves := sound.halves
  obtain ⟨distinct,all⟩ := sound.pending p moving
  rw [front,List.map_cons,List.nodup_cons] at distinct
  rw [front] at all
  obtain ⟨inside,fresh,here⟩ := all e List.mem_cons_self
  rw [moving] at halves
  have absent := halves.apart e.1 inside fresh (by rw [here]; rfl)
  have there : (net.put target { net.servers target with db := (net.servers target).db.replace e }).servers source =
      net.servers source := by rw [putServers,if_neg apart]
  refine ⟨⟨sound.placed,fun fresh => absurd marked fresh,sound.closed,sound.asked,fun q now => ?_,halves,sound.replies⟩,
    (net.servers target).db.replace e,?_,?_⟩
  · cases Option.some.inj now
    exact ⟨distinct.2,fun f member => all f (List.mem_cons_of_mem _ member)⟩
  · rw [SlotMove.restore,Dict.hasFind,absent]
    rfl
  · refine ⟨placedPut sound (sound.placed target),fun fresh => absurd ?_ fresh,?_,?_,fun q now => ?_,?_,sound.replies⟩
    · show Marked slot source target (net.put target _)
      rwa [Marked,there]
    · show ((net.put target _).servers target).cluster.slots slot = _ ∨ _ → _
      rw [there,putServers,if_pos rfl]
      exact sound.closed
    · intro t member own
      obtain ⟨_,lost⟩ := sound.asked t member own
      show Marked slot source target (net.put target _) ∧ ∃ k ∈ t.2,
        ((net.put target _).servers source).db.find k = none
      rw [Marked,there]
      exact ⟨marked,lost⟩
    · cases Option.some.inj now
      refine ⟨distinct.2,fun f member => ?_⟩
      obtain ⟨own,unsent,held⟩ := all f (List.mem_cons_of_mem _ member)
      refine ⟨own,?_,by rwa [there]⟩
      intro sent
      rcases List.mem_cons.mp sent with same | old
      · exact distinct.1 (same ▸ List.mem_map_of_mem member)
      · exact unsent old
    · show Halves _ _ ((net.put target _).servers source).db ((net.put target _).servers target).db _
      rw [there,putServers,if_pos rfl]
      exact halves.hand here fresh

/-- The source lets go of the keys that were handed over, and MIGRATE is done. -/
theorem soundAnswered (sound : Sound slot source target cmds db net) (apart : source ≠ target) {p : Pipeline Value}
    (moving : net.pipeline = some p) {gone : List Bytes} (all : ∀ k, k ∈ gone ↔ k ∈ p.restored)
    (stray : List (Bool × Bytes × Value)) :
    Sound slot source target cmds db { net.put source
      { net.servers source with db := deleteAll (net.servers source).db gone } with pipeline := none, stray } := by
  have marked : Marked slot source target net := by
    by_contra fresh
    have idle := (sound.before fresh).2.1
    rw [moving] at idle
    contradiction
  have halves := sound.halves
  rw [moving] at halves
  have there : (net.put source { net.servers source with db := deleteAll (net.servers source).db gone }).servers
      target = net.servers target := by rw [putServers,if_neg apart.symm]
  have here : (net.put source { net.servers source with db := deleteAll (net.servers source).db gone }).servers
      source = { net.servers source with db := deleteAll (net.servers source).db gone } := by
    rw [putServers,if_pos rfl]
  have less (k : Bytes) (lost : (net.servers source).db.find k = none) :
      (deleteAll (net.servers source).db gone).find k = none := by
    rw [findDeleteAll,lost,ite_self]
  have still : Marked slot source target
      (net.put source { net.servers source with db := deleteAll (net.servers source).db gone }) := by
    rw [Marked,here]
    exact marked
  refine ⟨placedPut sound (sound.placed source),fun fresh => absurd still fresh,?_,fun t member own => ?_,nofun,?_,
    sound.replies⟩
  · show ((net.put source _).servers target).cluster.slots slot = _ ∨
      ((net.put source _).servers source).cluster.slots slot = _ →
      ∀ k, _ → ((net.put source _).servers source).db.find k = _
    rw [here,there]
    exact fun given k inside => less k (sound.closed given k inside)
  · obtain ⟨_,k,member,lost⟩ := sound.asked t member own
    refine ⟨still,k,member,?_⟩
    show ((net.put source _).servers source).db.find k = _
    rw [here]
    exact less k lost
  · show Halves _ _ ((net.put source _).servers source).db ((net.put source _).servers target).db _
    rw [here,there]
    refine halves.drop.others (fun k _ => ?_) fun _ _ => rfl
    by_cases given : k ∈ p.restored <;> simp [findDeleteAll,all k,Pipeline.handed,given]

theorem soundStep (sound : Sound slot source target cmds db net) (apart : source ≠ target) {event : Event}
    {next : Net Value Reply} (allowed : Allowed slot source target net event)
    (taken : step cmds slot source target net event = some next) : Sound slot source target cmds db next := by
  cases stepWay taken with
  | query n env c argv idle => exact soundQuery sound apart idle allowed.1 allowed.2
  | setslot n action => exact soundSetslot sound apart allowed
  | claim n owner shrunk => exact soundClaim sound apart allowed
  | migrate replace keys idle => exact soundMigrate sound idle allowed
  | restored moving put =>
    obtain ⟨_,t,done,handed⟩ := soundRestore sound apart moving rfl
    obtain rfl := Option.some.inj (done.symm.trans put)
    exact handed
  | refused refused moving => exact (soundRestore sound apart moving rfl).1
  | answered moving => exact soundAnswered sound apart moving (fun _ => Iff.rfl) net.stray
  | @broken acknowledged _ _ restored moving =>
    have every : restored.reverse.length ≤ acknowledged := by
      simpa only [Allowed,moving,Pipeline.handed,List.length_reverse] using allowed
    refine soundAnswered sound apart moving (fun k => ?_) _
    rw [List.take_of_length_le every,List.mem_reverse]
  | executed =>
    -- What a broken MIGRATE has left on its way is not executed.
    exact absurd allowed Bool.false_ne_true
  | lost => exact ⟨sound.placed,sound.before,sound.closed,sound.asked,sound.pending,sound.halves,sound.replies⟩

end keeps

section serves
variable {Value Reply : Type} (slot : Slot) (source target : NodeId) (cmds : Commands Value Reply)

/-- Before the transfer: every node knows the source as the owner, and the keys are there. -/
structure Fresh (net : Net Value Reply) : Prop where
  view : ∀ n, (net.servers n).cluster.myself = n ∧ (net.servers n).cluster.isSlave = false ∧
    Cold (net.servers n).cluster ∧ (net.servers n).cluster.slots slot = some source ∧
    (net.servers n).cluster.migratingSlotsTo slot = none ∧ (net.servers n).cluster.importingSlotsFrom slot = none
  absent : ∀ k, keyHashSlot k = slot → (net.servers target).db.find k = none
  idle : net.pipeline = none ∧ net.asked = [] ∧ net.served = []

/-- The two masters are one store for the clients: every call was answered as by one database that
ran all of them in turn, and that database holds what the two hold together. -/
structure Together (db : Store Value) (net : Net Value Reply) : Prop where
  replies : net.served.map Prod.snd = (oneStore cmds db net).1
  holds : ∀ k, keyHashSlot k = slot → (oneStore cmds db net).2.find k =
    joined (net.servers source).db (net.servers target).db (Pipeline.handed net.pipeline) k
  once : ∀ k, keyHashSlot k = slot → k ∉ Pipeline.handed net.pipeline → ((net.servers source).db.find k).isSome →
    (net.servers target).db.find k = none
  given : (net.servers target).cluster.slots slot = some target ∨
    (net.servers source).cluster.slots slot = some target →
    ∀ k, keyHashSlot k = slot → (net.servers source).db.find k = none ∧
      (oneStore cmds db net).2.find k = (net.servers target).db.find k

variable {slot source target cmds}

theorem soundFresh {start : Net Value Reply} (fresh : Fresh slot source target start) (apart : source ≠ target) :
    Sound slot source target cmds (start.servers source).db start := by
  obtain ⟨idle,unasked,unserved⟩ := fresh.idle
  have owner (n : NodeId) : (start.servers n).cluster.slots slot = some source := (fresh.view n).2.2.2.1
  refine ⟨fun n => ?_,fun _ => ⟨fresh.absent,idle,owner target⟩,fun given => ?_,?_,?_,?_,?_⟩
  · obtain ⟨myself,master,cold,owner,stays,closed⟩ := fresh.view n
    exact ⟨myself,master,cold,.inl owner,by simp [stays],by simp [closed]⟩
  · rw [owner,owner,or_self] at given
    exact absurd (Option.some.inj given) apart
  · rw [unasked]
    nofun
  · rw [idle]
    nofun
  · rw [idle,oneStore,unserved]
    exact halvesOne fresh.absent
  · rw [oneStore,unserved]
    rfl

theorem runSound {start net : Net Value Reply} {past : List Event} (apart : source ≠ target)
    (fresh : Fresh slot source target start)
    (run : Reach (Guarded (Allowed slot source target) (Takes (step cmds slot source target))) start past net) :
    Sound slot source target cmds (start.servers source).db net := by
  refine reachInvariant (soundFresh fresh apart) ?_ run
  intro s event t sound taken
  exact soundStep sound apart taken.1 taken.2

/-- In every run, with clients that follow the redirections and a manager that gives the slot away when
the source has no key of it left. -/
theorem migrationServes {start net : Net Value Reply} {past : List Event} (apart : source ≠ target)
    (fresh : Fresh slot source target start)
    (run : Reach (Guarded (Allowed slot source target) (Takes (step cmds slot source target))) start past net) :
    Together slot source target cmds (start.servers source).db net := by
  have sound := runSound apart fresh run
  refine ⟨sound.replies,sound.halves.view,sound.halves.apart,fun given k inside => ?_⟩
  have none := sound.closed given k inside
  refine ⟨none,?_⟩
  rw [sound.halves.view k inside,joined,none,Option.none_or,ite_self]

end serves

section shown
variable {Value Reply : Type} {slot : Slot} {source target : NodeId}

instance (env : Env) (c : Client) (argv : List Bytes) : Decidable (Ordinary env c argv) :=
  decidable_of_iff (env.clusterEnabled = true ∧ env.noRedirection = false ∧
      (c.master = false ∧ c.sync = false ∧ c.luaOfMaster = false) ∧ (c.multi = false → c.mstate.isEmpty) ∧
      strncmpEqual (argv.headD []) magicWord 6 = false ∧ isMigrate argv = false ∧
      ∀ cmd ∈ env.commands (argv.headD []), cmd.proc ≠ .migrate ∧ cmd.asking = false)
    ⟨fun h => ⟨h.1,h.2.1,h.2.2.1,fun single => List.isEmpty_iff.mp
      (h.2.2.2.1 single),h.2.2.2.2.1,h.2.2.2.2.2.1,h.2.2.2.2.2.2⟩,
      fun h => ⟨h.enabled,h.redirects,h.client,fun single => List.isEmpty_iff.mpr (h.bare single),h.word,h.moves,h.cmd⟩⟩

instance (net : Net Value Reply) : Decidable (Marked slot source target net) := instDecidableOr

instance (net : Net Value Reply) : DecidablePred (Allowed slot source target net)
  | .query _ _ _ _ => instDecidableAnd
  | .setslot _ (.migrating _) => instDecidableAnd
  | .setslot _ (.importing _) => instDecidableAnd
  | .setslot _ (.node _) => instDecidableAnd
  | .claim _ _ _ => instDecidableOr
  | .migrate _ _ => instDecidableAnd
  | .restore _ => instDecidableTrue
  | .answered => instDecidableTrue
  | .broken _ => Nat.decLe _ _
  | .late _ => instDecidableEqBool _ _

def putAll (value : Value) (keys : List Bytes) (db : Store Value) : Store Value :=
  keys.foldl (fun db k => db.replace (k,value)) db

theorem findPutAll (value : Value) (keys : List Bytes) (db : Store Value) (k : Bytes) :
    (putAll value keys db).find k = if k ∈ keys then some (k,value) else db.find k := by
  induction keys generalizing db with
  | nil => rfl
  | cons j rest ih =>
    rw [putAll,List.foldl_cons,← putAll,ih,Dict.findReplace]
    by_cases later : k ∈ rest
    · simp [later]
    · by_cases here : j = k
      · simp [here]
      · simp [later,here,Ne.symm here]

/-- Every command answers with what it finds under its keys; a write leaves itself under them. -/
def noting : Commands (List Bytes) (List (Option (List Bytes))) where
  operation c cmd argv :=
    { keys := (allKeys (queryCommands c cmd argv)).getD []
      run := fun db => (((allKeys (queryCommands c cmd argv)).getD []).map fun k => (db.find k).map Prod.snd,
        if cmd.write then putAll argv ((allKeys (queryCommands c cmd argv)).getD []) db else db)
      reads := fun s t same => ⟨List.map_congr_left fun k member => by rw [same k member],fun k member => by
        split
        · rw [findPutAll,findPutAll,if_pos member,if_pos member]
        · exact same k member⟩
      writes := fun s k other => by
        simp only
        split
        · rw [findPutAll,if_neg other]
        · rfl }
  declared c cmd argv keys read k member := by
    simp only [read,Option.getD_some] at member
    exact member

abbrev NotingNet := Net (List Bytes) (List (Option (List Bytes)))

/-- One key at node 0, which owns every slot. -/
def settled : NotingNet :=
  ⟨fun n => ⟨.initial 0 n,if n = 0 then Dict.empty.replace (letterK,[letterA]) else .empty⟩,none,[],[],[]⟩

def getK : List Bytes := [textGet,letterK]
def setK : List Bytes := [textSet,letterK,letterA]

/-- The first MIGRATE breaks off; the second one hands the key over, a client writes it at the target
and another one is sent there. -/
def handover : List Event := [
  .setslot 1 (.importing 0),.setslot 0 (.migrating 1),.query 0 (calm (clock 0)) .fresh getK,.migrate false [letterK],
  .broken 0,.late true,.migrate false [letterK],.restore false,.answered,.query 0 (calm (clock 0)) .fresh setK,
  .query 1 (calm (clock 0)) { Client.fresh with asking := true } setK,.setslot 1 (.node 1),.claim 0 1 false,
  .query 1 (calm (clock 0)) .fresh getK]

theorem settledFresh : Fresh (keyHashSlot letterK) 0 1 settled :=
  ⟨fun _ => ⟨rfl,rfl,fun _ => ⟨rfl,rfl⟩,rfl,rfl,rfl⟩,fun _ _ => rfl,rfl,rfl,rfl⟩

theorem migrationServesMet : ∃ net : NotingNet, Together (keyHashSlot letterK) 0 1 noting (settled.servers 0).db net ∧
    net.served.map Prod.snd = [[some [letterA]],[some [letterA]],[some setK]] := by
  have played : (replay (fun s event => if decide (Allowed (keyHashSlot letterK) 0 1 s event) then
      step noting (keyHashSlot letterK) 0 1 s event else none) settled handover).any
      (fun net => net.served.map Prod.snd == [[some [letterA]],[some [letterA]],[some setK]]) =
        true := by decide +kernel
  obtain ⟨net,run,seen⟩ := replayShown (fun _ _ allowed => of_decide_eq_true allowed) played
  exact ⟨net,migrationServes (by decide) settledFresh run,eq_of_beq seen⟩

end shown

end HpuCache.LiveMigration
