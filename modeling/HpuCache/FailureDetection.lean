import HpuCache.EventRun
import HpuCache.FailReports

/-! Failure detection across the cluster. Nodes gossip about each other in every PING and
PONG, a node that saw a majority flags another one as failed and tells everybody, and who is
told or sees the flag in gossip about a node it did not know believes it. Packets are lost,
reordered and repeated at will. -/
namespace HpuCache.FailureDetection
open EventRun FailReports KeyedDict

variable {ν : Type}

inductive Body (ν : Type) where
  -- PING, MEET and PONG: whether the header names no master, and the gossip section.
  | config (pong master : Bool) (gossip : List (GossipEntry ν))
  | fail (about : ν)

structure Packet (ν : Type) where
  sender : ν
  target : ν
  body : Body ν

/-- What the other handlers do to the slots of the nodes and to the role of this one. -/
structure Reconfig (ν : Type) where
  numslots : ν → Int
  master : Bool

/-- The state around the processing of one packet. -/
structure Delivery (ν : Type) where
  now : Int
  -- `link->node` is the sender, as on the links that this node opened.
  outbound : Bool
  blacklist : ν → Bool
  -- The nodes that a broadcast reaches.
  links : List ν
  rc : Reconfig ν

structure Net (ν : Type) where
  servers : ν → Server ν
  sent : List (Packet ν)

inductive Event (ν : Type) where
  | ping (a b : ν) (pong master : Bool) (about : List ν) (outbound : Bool) (now : Int)
  -- Any packet that was ever sent, by its place.
  | deliver (d : ν) (i : Nat) (how : Delivery ν)
  -- The check of one node in `clusterCron`.
  | cron (a x : ν) (now : Int)
  | reconfigure (a : ν) (rc : Reconfig ν)
  | updateState (a : ν)
  | forget (a x : ν) (now : Int)

section
variable [DecidableEq ν] (cfg : Config)

def update (s : Server ν) (name : ν) (f : ClusterNode ν → ClusterNode ν) : Server ν :=
  match s.nodes.find name with
  | some n => s.store (f n)
  | none => s

def pongHandled (now : Int) (n : ClusterNode ν) : ClusterNode ν :=
  let n := { n with pongReceived := now, pingSent := 0 }
  if n.pfail then { n with pfail := false }
  else if n.fail then clearNodeFailureIfNeeded cfg now n
  else n

def roleSwitch (master : Bool) (n : ClusterNode ν) : ClusterNode ν :=
  if master then { n with master := true, slave := false }
  else if n.master then { n with master := false, slave := true, numslots := 0 }
  else n

def configured (myself : ν) (rc : Reconfig ν) (n : ClusterNode ν) : ClusterNode ν :=
  if n.name = myself then { n with numslots := rc.numslots n.name, master := rc.master, slave := ! rc.master }
  else { n with numslots := rc.numslots n.name }

theorem configuredName (myself : ν) (rc : Reconfig ν) (n : ClusterNode ν) :
    (configured myself rc n).name = n.name := by
  unfold configured
  split <;> rfl

def configure (s : Server ν) (rc : Reconfig ν) : Server ν :=
  { s with nodes := s.nodes.mapEntries (configured s.myself rc) (configuredName s.myself rc) }

/-- A PING, MEET or PONG of a known sender, up to its gossip section. -/
def configHeader (how : Delivery ν) (s : Server ν) (sender : ν) (pong master : Bool) : Server ν :=
  let s := update s sender fun n => { n with dataReceived := how.now }
  let s := if how.outbound && pong then update s sender (pongHandled cfg how.now) else s
  let s := update s sender (roleSwitch master)
  configure s how.rc

def failHandled (now : Int) (myself : ν) (n : ClusterNode ν) : ClusterNode ν :=
  if n.fail || decide (n.name = myself) then n else { n with fail := true, failTime := now, pfail := false }

/-- A packet of a known sender, and the names it makes this node send a FAIL message about. -/
def clusterProcessPacket (how : Delivery ν) (s : Server ν) (p : Packet ν) : Server ν × List ν :=
  match p.body with
  | .config pong master gossip =>
    clusterProcessGossipSection cfg how.now how.blacklist p.sender (configHeader cfg how s p.sender pong master) gossip
  | .fail about =>
    let s := update s p.sender fun n => { n with dataReceived := how.now }
    (update s about (failHandled how.now s.myself),[])

def clusterSendFail (links : List ν) (myself x : ν) : List (Packet ν) :=
  (links.filter fun b => decide (b ≠ myself)).map fun b => ⟨myself,b,.fail x⟩

def clusterSetGossipEntry (n : ClusterNode ν) : GossipEntry ν :=
  ⟨n.name,n.master,n.slave,n.pfail,n.fail,n.noaddr,n.pongReceived / 1000,n.addr⟩

/-- The gossip about the chosen nodes: those of the table, and never this one. -/
def gossipAbout (s : Server ν) (about : List ν) : List (GossipEntry ν) :=
  ((about.filter fun x => decide (x ≠ s.myself)).filterMap s.nodes.find).map clusterSetGossipEntry

def pfailCheck (now : Int) (myself : ν) (n : ClusterNode ν) : ClusterNode ν :=
  if n.name = myself ∨ n.noaddr = true ∨ n.pingSent = 0 then n
  else if min (now - n.pingSent) (now - n.dataReceived) > cfg.clusterNodeTimeout ∧ n.pfail = false ∧ n.fail = false then
    { n with pfail := true }
  else n

def clusterUpdateSize (s : Server ν) : Server ν :=
  { s with size := s.nodes.entries.countP fun n => n.master && n.numslots != 0 }

theorem delName (now : Int) (x : ν) (n : ClusterNode ν) :
    (clusterNodeDelFailureReport cfg now n x).name = n.name := (delFollows _ _ n x).name

def clusterDelNode (now : Int) (s : Server ν) (x : ν) : Server ν :=
  let others := s.nodes.mapEntries (fun n => clusterNodeDelFailureReport cfg now n x) (delName cfg now x)
  { s with nodes := others.delete x }

def Net.put (net : Net ν) (a : ν) (s : Server ν) : Net ν := { net with servers := Function.update net.servers a s }

def step (net : Net ν) : Event ν → Option (Net ν)
  | .ping a b pong master about outbound now =>
    if a = b then none
    else
      let s := net.servers a
      let packet : Packet ν := ⟨a,b,.config pong master (gossipAbout s about)⟩
      let s := if ! pong && outbound then update s b fun n => { n with pingSent := now } else s
      some { net.put a s with sent := net.sent ++ [packet] }
  | .deliver d i how => do
    let p ← net.sent[i]?
    let s := net.servers d
    if p.target = d ∧ s.nodes.has p.sender then
      let done := clusterProcessPacket cfg how s p
      some { net.put d done.1 with sent := net.sent ++ done.2.flatMap (clusterSendFail how.links d) }
    else none
  | .cron a x now => some (net.put a (update (net.servers a) x (pfailCheck cfg now (net.servers a).myself)))
  | .reconfigure a rc => some (net.put a (configure (net.servers a) rc))
  | .updateState a => some (net.put a (clusterUpdateSize (net.servers a)))
  | .forget a x now => if x = a then none else some (net.put a (clusterDelNode cfg now (net.servers a) x))

def Flagged (net : Net ν) (a x : ν) : Prop :=
  ∃ n, (net.servers a).nodes.find x = some n ∧ (n.fail = true ∨ n.pfail = true)

def Failed (net : Net ν) (a x : ν) : Prop := ∃ n, (net.servers a).nodes.find x = some n ∧ n.fail = true

abbrev Run (start : Net ν) := Reach (Takes (step cfg)) start
abbrev Past (start : Net ν) := Once (Takes (step cfg)) start

/-- While it had `x` flagged itself, `v` put `p` at the place `i` of what was sent: a packet with gossip
about `x` in which it presents itself as a master. -/
structure Accuses (v x : ν) (i : Nat) (p : Packet ν) (s : Net ν) (event : Event ν) : Prop where
  flagged : Flagged s v x
  place : i = s.sent.length
  pinged : ∃ d pong about outbound now, event = .ping v d pong true about outbound now ∧ x ∈ about ∧
    p = ⟨v,d,.config pong true (gossipAbout (s.servers v) about)⟩

/-- A packet of `v` that presents itself as a master and calls `x` failing. -/
structure Report (v d x : ν) (p : Packet ν) : Prop where
  sender : p.sender = v
  target : p.target = d
  body : ∃ pong gossip, p.body = .config pong true gossip ∧ ∃ g ∈ gossip, g.nodename = x ∧ g.failing = true

/-- At the time `time` of its clock `d` processed a report of `v`, the very packet that `v` had sent
while it had `x` flagged. -/
def Heard (start : Net ν) (past : List (Event ν)) (d v x : ν) (time : Int) : Prop :=
  Past cfg start past fun before s event _ => ∃ i how p, event = .deliver d i how ∧ s.sent[i]? = some p ∧
    how.now = time ∧ Report v d x p ∧ Past cfg start before fun _ s event _ => Accuses v x i p s event

/-- The report of `v` about `x` that `s` has in its list. -/
def Holds (s : Server ν) (v x : ν) (time : Int) : Prop :=
  ∃ n, s.nodes.find x = some n ∧ ∃ fr ∈ n.failReports, fr.node = v ∧ fr.time = time

/-- `d` has a report of another node when it is done with the packet `p`: it had the report before,
or takes it out of the packet. -/
structure Counted (start : Net ν) (past : List (Event ν)) (s : Server ν) (d : ν) (how : Delivery ν) (p : Packet ν)
    (v x : ν) (time : Int) : Prop where
  other : v ≠ d
  heard : Heard cfg start past d v x time
  held : Holds s v x time ∨ v = p.sender ∧ time = how.now

/-- Different nodes whose recent reports are a majority of the masters with slots, with the vote of `d`. -/
structure Majority (start : Net ν) (past : List (Event ν)) (s : Server ν) (d : ν) (how : Delivery ν) (p : Packet ν)
    (x : ν) (voters : List ν) : Prop where
  distinct : voters.Nodup
  enough : s.size / 2 + 1 ≤ voters.length + (if how.rc.master then 1 else 0)
  counted : ∀ v ∈ voters, ∃ time, Counted cfg start past s d how p v x time ∧ how.now - time ≤ cfg.maxtime

/-- Some node counted such a majority, and flagged `x` FAIL for it. -/
def Decided (start : Net ν) (past : List (Event ν)) (x : ν) : Prop :=
  Past cfg start past fun before s event _ => ∃ d i how p, event = .deliver d i how ∧ s.sent[i]? = some p ∧
    x ∈ (clusterProcessPacket cfg how (s.servers d) p).2 ∧
    ∃ voters, Majority cfg start (event :: before) (s.servers d) d how p x voters

section
variable {cfg} {start : Net ν} {past : List (Event ν)}

theorem Heard.later {d v x : ν} {time : Int} (heard : Heard cfg start past d v x time) (event : Event ν) :
    Heard cfg start (event :: past) d v x time := Once.later heard event

theorem Decided.later {x : ν} (decided : Decided cfg start past x) (event : Event ν) :
    Decided cfg start (event :: past) x := Once.later decided event

/-- A step on one record that takes no report in and sets no FAIL flag. -/
structure Weaker (n m : ClusterNode ν) : Prop where
  name : m.name = n.name
  fail : m.fail = true → n.fail = true
  reports : m.failReports.Sublist n.failReports

variable {R : ν → ν → Int → Prop} {F : ν → Prop}

theorem updateBacked {s : Server ν} {f : ClusterNode ν → ClusterNode ν} {name : ν} (backed : Backed R F s)
    (names : ∀ n, (f n).name = n.name) (reports : ∀ n, (f n).failReports.Sublist n.failReports)
    (fails : ∀ n, (f n).fail = true → n.fail = true ∨ F name) : Backed R F (update s name f) := by
  unfold update
  cases found : s.nodes.find name with
  | none => exact backed
  | some n =>
    obtain ⟨known,reasons⟩ := backed name n found
    obtain rfl := (Dict.findMem found).2
    refine storeBacked backed ?_ ?_
    · rw [names]
      exact known.sublist (reports n)
    · intro failed
      rw [names]
      exact (fails n failed).elim reasons id

theorem weakerBacked {s : Server ν} {f : ClusterNode ν → ClusterNode ν} (backed : Backed R F s)
    (weaker : ∀ n, Weaker n (f n)) (name : ν) : Backed R F (update s name f) :=
  updateBacked backed (fun n => (weaker n).name) (fun n => (weaker n).reports) fun n failed => .inl ((weaker n).fail failed)

theorem updateFind {s : Server ν} {f : ClusterNode ν → ClusterNode ν} (names : ∀ n, (f n).name = n.name) (name k : ν) :
    (update s name f).nodes.find k = if name = k then (s.nodes.find k).map f else s.nodes.find k := by
  unfold update
  cases found : s.nodes.find name with
  | none =>
    dsimp only
    by_cases same : name = k
    · rw [if_pos same,← same,found]
      rfl
    · rw [if_neg same]
  | some n =>
    obtain rfl := (Dict.findMem found).2
    dsimp only
    rw [storeFind,names]
    split
    · rename_i same
      rw [← same,found]
      rfl
    · rfl

theorem mapBacked {s : Server ν} {f : ClusterNode ν → ClusterNode ν} (names : ∀ n, (f n).name = n.name)
    (backed : Backed R F s) (weaker : ∀ n, Weaker n (f n)) :
    Backed R F { s with nodes := s.nodes.mapEntries f names } := by
  intro x m found
  have mapped : (s.nodes.find x).map f = some m := (Dict.findMap s.nodes names x).symm.trans found
  obtain ⟨n,inside,rfl⟩ := Option.map_eq_some_iff.mp mapped
  obtain ⟨known,fails⟩ := backed x n inside
  exact ⟨known.sublist (weaker n).reports,fun failed => fails ((weaker n).fail failed)⟩

omit [DecidableEq ν] in
variable (cfg) in
theorem clearWeaker (now : Int) (n : ClusterNode ν) : Weaker n (clearNodeFailureIfNeeded cfg now n) := by
  refine ⟨?_,?_,?_⟩
  · simp only [clearNodeFailureIfNeeded]
    split <;> split <;> rfl
  · simp only [clearNodeFailureIfNeeded]
    split <;> split <;> simp
  · simp only [clearNodeFailureIfNeeded]
    split <;> split <;> exact List.Sublist.refl _

variable (cfg) in
omit [DecidableEq ν] in
theorem pongWeaker (now : Int) (n : ClusterNode ν) : Weaker n (pongHandled cfg now n) := by
  simp only [pongHandled]
  split
  · exact ⟨rfl,id,List.Sublist.refl _⟩
  · split
    · have cleared := clearWeaker cfg now { n with pongReceived := now, pingSent := 0 }
      exact ⟨cleared.name,cleared.fail,cleared.reports⟩
    · exact ⟨rfl,id,List.Sublist.refl _⟩

variable (cfg) in
theorem pfailWeaker (now : Int) (myself : ν) (n : ClusterNode ν) : Weaker n (pfailCheck cfg now myself n) := by
  unfold pfailCheck
  split
  · exact ⟨rfl,id,List.Sublist.refl _⟩
  · split <;> exact ⟨rfl,id,List.Sublist.refl _⟩

variable (cfg) in
theorem forgetBacked {s : Server ν} {x k : ν} (now : Int) (backed : Backed R F s) (other : ¬ x = k) :
    Backed R F (clusterDelNode cfg now s x) ∧
      ((clusterDelNode cfg now s x).nodes.find k).isSome = (s.nodes.find k).isSome := by
  have weaker (n : ClusterNode ν) : Weaker n (clusterNodeDelFailureReport cfg now n x) := by
    have follows := delFollows cfg now n x
    exact ⟨follows.name,fun failed => follows.fail ▸ failed,follows.reports⟩
  constructor
  · intro y n found
    simp only [clusterDelNode,Dict.findDelete] at found
    split at found
    · contradiction
    · exact mapBacked (delName cfg now x) backed weaker y n found
  · simp only [clusterDelNode,Dict.findDelete,other,if_false,Dict.findMap,Option.isSome_map]

omit [DecidableEq ν] in
theorem seenWeaker (now : Int) (n : ClusterNode ν) : Weaker n { n with dataReceived := now } :=
  ⟨rfl,id,List.Sublist.refl _⟩

omit [DecidableEq ν] in
theorem roleWeaker (master : Bool) (n : ClusterNode ν) : Weaker n (roleSwitch master n) := by
  unfold roleSwitch
  split
  · exact ⟨rfl,id,List.Sublist.refl _⟩
  · split <;> exact ⟨rfl,id,List.Sublist.refl _⟩

theorem configuredWeaker (myself : ν) (rc : Reconfig ν) (n : ClusterNode ν) : Weaker n (configured myself rc n) := by
  refine ⟨configuredName myself rc n,?_,?_⟩ <;> unfold configured <;> split <;> simp

/-- The same nodes are known, under the same size of the cluster. -/
structure Even (s t : Server ν) : Prop where
  myself : t.myself = s.myself
  size : t.size = s.size
  known : ∀ k, (t.nodes.find k).isSome = (s.nodes.find k).isSome

theorem Even.trans {s t u : Server ν} (first : Even s t) (second : Even t u) : Even s u :=
  ⟨second.myself.trans first.myself,second.size.trans first.size,fun k => (second.known k).trans (first.known k)⟩

theorem updateEven (s : Server ν) {f : ClusterNode ν → ClusterNode ν} (names : ∀ n, (f n).name = n.name) (name : ν) :
    Even s (update s name f) := by
  refine ⟨?_,?_,fun k => ?_⟩
  · unfold update
    split <;> rfl
  · unfold update
    split <;> rfl
  · rw [updateFind names]
    split <;> simp

theorem configureFind (s : Server ν) (rc : Reconfig ν) (k : ν) :
    (configure s rc).nodes.find k = (s.nodes.find k).map (configured s.myself rc) :=
  Dict.findMap s.nodes (configuredName s.myself rc) k

theorem configureVoter (s : Server ν) (rc : Reconfig ν) (voter : (configure s rc).isMaster s.myself = true) :
    rc.master = true := by
  rw [Server.isMaster,configureFind] at voter
  cases found : s.nodes.find s.myself with
  | none => simp [found] at voter
  | some n =>
    have name := (Dict.findMem found).2
    simpa [found,configured,name] using voter

theorem configureOther {s : Server ν} {rc : Reconfig ν} {k : ν} (other : k ≠ s.myself) :
    (configure s rc).isMaster k = s.isMaster k := by
  rw [Server.isMaster,Server.isMaster,configureFind]
  cases found : s.nodes.find k with
  | none => rfl
  | some n =>
    have name := (Dict.findMem found).2
    simp [configured,name,other]

theorem roleMaster {s : Server ν} {sender : ν} (master : Bool) (known : (s.nodes.find sender).isSome) :
    (update s sender (roleSwitch master)).isMaster sender = master := by
  obtain ⟨n,found⟩ := Option.isSome_iff_exists.mp known
  rw [Server.isMaster,updateFind fun n => (roleWeaker master n).name,if_pos rfl,found,Option.map_some,Option.any_some]
  unfold roleSwitch
  cases master with
  | true => rfl
  | false =>
    cases role : n.master with
    | true => rfl
    | false => simp [role]

theorem configureEven (s : Server ν) (rc : Reconfig ν) : Even s (configure s rc) :=
  ⟨rfl,rfl,fun k => by rw [configureFind,Option.isSome_map]⟩

/-- What the header of a packet leaves: it takes no report in, and its sender is the master it says it is. -/
structure Headed (s t : Server ν) (sender : ν) (master : Bool) (rc : Reconfig ν) : Prop where
  even : Even s t
  sender : sender ≠ s.myself → (s.nodes.find sender).isSome → t.isMaster sender = master
  voter : t.isMaster s.myself = true → rc.master = true
  backed : ∀ {R : ν → ν → Int → Prop} {F : ν → Prop}, Backed R F s → Backed R F t

variable (cfg) in
theorem headerHeaded (how : Delivery ν) (s : Server ν) (sender : ν) (pong master : Bool) :
    Headed s (configHeader cfg how s sender pong master) sender master how.rc := by
  have seen (n : ClusterNode ν) := seenWeaker how.now n
  have ponged (n : ClusterNode ν) := pongWeaker cfg how.now n
  have roles (n : ClusterNode ν) := roleWeaker master n
  have first := updateEven s (fun n => (seen n).name) sender
  simp only [configHeader]
  have second : Even s (if (how.outbound && pong) = true then
      update (update s sender fun n => { n with dataReceived := how.now }) sender (pongHandled cfg how.now)
      else update s sender fun n => { n with dataReceived := how.now }) := by
    split
    · exact first.trans (updateEven _ (fun n => (ponged n).name) sender)
    · exact first
  have third := second.trans (updateEven _ (fun n => (roles n).name) sender)
  refine ⟨third.trans (configureEven _ how.rc),fun other known => ?_,fun voter => ?_,fun backed => ?_⟩
  · rw [configureOther (by rw [third.myself]; exact other)]
    exact roleMaster master (by rw [second.known]; exact known)
  · rw [← third.myself] at voter
    exact configureVoter _ how.rc voter
  · refine mapBacked _ (weakerBacked ?_ roles sender) (configuredWeaker _ how.rc)
    split
    · exact weakerBacked (weakerBacked backed seen sender) ponged sender
    · exact weakerBacked backed seen sender

end

/-- The reports and flags of a server are backed by the past of the run. -/
abbrev Grounded (start : Net ν) (past : List (Event ν)) (a : ν) (s : Server ν) : Prop :=
  Backed (fun v x time => v ≠ a ∧ Heard cfg start past a v x time) (Decided cfg start past) s

/-- A packet says what its sender had reason to say when it sent it. -/
structure Sincere (start : Net ν) (past : List (Event ν)) (i : Nat) (p : Packet ν) : Prop where
  apart : p.sender ≠ p.target
  gossip : ∀ pong master gossip, p.body = .config pong master gossip → ∀ g ∈ gossip,
    (master = true → g.failing = true →
      Past cfg start past fun _ s event _ => Accuses p.sender g.nodename i p s event) ∧
    (g.fail = true → Decided cfg start past g.nodename)
  told : ∀ x, p.body = .fail x → Decided cfg start past x

structure Honest (start : Net ν) (past : List (Event ν)) (net : Net ν) : Prop where
  sincere : ∀ i p, net.sent[i]? = some p → Sincere cfg start past i p
  grounded : ∀ a, Grounded cfg start past a (net.servers a)
  myself : ∀ a, (net.servers a).myself = a
  known : ∀ a, ((net.servers a).nodes.find a).isSome

/-- A cluster in which nobody has failed yet. -/
structure Fresh (net : Net ν) : Prop where
  sent : net.sent = []
  flags : ∀ a x n, (net.servers a).nodes.find x = some n → n.fail = false ∧ n.failReports = []
  myself : ∀ a, (net.servers a).myself = a
  known : ∀ a, ((net.servers a).nodes.find a).isSome

section
variable {cfg} {start : Net ν} {past : List (Event ν)} {net : Net ν}

theorem Sincere.later {i : Nat} {p : Packet ν} (sincere : Sincere cfg start past i p) (event : Event ν) :
    Sincere cfg start (event :: past) i p where
  apart := sincere.apart
  gossip := fun pong master gossip body g member =>
    ⟨fun voter failing => ((sincere.gossip pong master gossip body g member).1 voter failing).later event,
      fun failed => ((sincere.gossip pong master gossip body g member).2 failed).later event⟩
  told := fun x body => (sincere.told x body).later event

theorem groundedLater {a : ν} {s : Server ν} (grounded : Grounded cfg start past a s) (event : Event ν) :
    Grounded cfg start (event :: past) a s :=
  Backed.imp grounded (fun _ _ _ heard => ⟨heard.1,heard.2.later event⟩) fun _ decided => decided.later event

theorem honestStart (fresh : Fresh start) : Honest cfg start [] start := by
  refine ⟨by simp [fresh.sent],fun a x n found => ?_,fresh.myself,fresh.known⟩
  obtain ⟨up,none⟩ := fresh.flags a x n found
  rw [up,none]
  exact ⟨knownNil,fun failed => Bool.noConfusion failed⟩

/-- One node changed, and some packets were sent. -/
theorem honestPut (packets : List (Packet ν)) {a : ν} {s : Server ν} {event : Event ν}
    (honest : Honest cfg start past net) (grounded : Grounded cfg start (event :: past) a s)
    (even : s.myself = a) (known : (s.nodes.find a).isSome)
    (sincere : ∀ i p, packets[i]? = some p → Sincere cfg start (event :: past) (net.sent.length + i) p) :
    Honest cfg start (event :: past) { net.put a s with sent := net.sent ++ packets } := by
  refine ⟨fun i p there => ?_,?_,?_,?_⟩
  · by_cases old : i < net.sent.length
    · rw [List.getElem?_append_left old] at there
      exact (honest.sincere i p there).later event
    · rw [List.getElem?_append_right (Nat.not_lt.mp old)] at there
      have new := sincere _ p there
      rwa [Nat.add_sub_cancel' (Nat.not_lt.mp old)] at new
  · exact (Function.forall_update_iff net.servers fun b t => Grounded cfg start (event :: past) b t).mpr
      ⟨grounded,fun b _ => groundedLater (honest.grounded b) event⟩
  · exact (Function.forall_update_iff net.servers fun b t => t.myself = b).mpr ⟨even,fun b _ => honest.myself b⟩
  · exact (Function.forall_update_iff net.servers fun b t => (t.nodes.find b).isSome).mpr
      ⟨known,fun b _ => honest.known b⟩

theorem honestSame {a : ν} {s : Server ν} {event : Event ν} (honest : Honest cfg start past net)
    (grounded : Grounded cfg start past a s) (myself : s.myself = (net.servers a).myself)
    (known : (s.nodes.find a).isSome) : Honest cfg start (event :: past) (net.put a s) := by
  have put := honestPut [] honest (groundedLater grounded event) (myself.trans (honest.myself a)) known
    (by simp)
  rw [List.append_nil] at put
  exact put

theorem aboutMem {s : Server ν} {about : List ν} {g : GossipEntry ν} (member : g ∈ gossipAbout s about) :
    ∃ n, s.nodes.find n.name = some n ∧ n.name ∈ about ∧ g = clusterSetGossipEntry n := by
  obtain ⟨n,inside,rfl⟩ := List.mem_map.mp member
  obtain ⟨x,chosen,found⟩ := List.mem_filterMap.mp inside
  obtain rfl := (Dict.findMem found).2
  exact ⟨n,found,List.mem_of_mem_filter chosen,rfl⟩

theorem pingSincere {a b : ν} {pong master : Bool} {about : List ν} {outbound : Bool} {now : Int} {t : Net ν}
    (run : Run cfg start past net) (honest : Honest cfg start past net) (apart : a ≠ b)
    (taken : Takes (step cfg) net (.ping a b pong master about outbound now) t) :
    Sincere cfg start (.ping a b pong master about outbound now :: past) net.sent.length
      ⟨a,b,.config pong master (gossipAbout (net.servers a) about)⟩ := by
  refine ⟨apart,fun pong' master' gossip body g member => ?_,fun x body => by simp at body⟩
  simp only [Body.config.injEq] at body
  obtain ⟨rfl,rfl,rfl⟩ := body
  obtain ⟨n,found,chosen,rfl⟩ := aboutMem member
  refine ⟨fun voter failing => ?_,fun failed => ?_⟩
  · subst voter
    have flagged : n.fail = true ∨ n.pfail = true := by simpa [GossipEntry.failing,clusterSetGossipEntry] using failing
    exact onceNow run taken ⟨⟨n,found,flagged⟩,rfl,b,pong,about,outbound,now,rfl,chosen,rfl⟩
  · exact ((honest.grounded a n.name n found).2 failed).later _

variable (cfg start past) in
/-- What a node has of reports, with those that it is about to take out of a packet. -/
theorem groundedCounted {d : ν} {s : Server ν} (how : Delivery ν) (p : Packet ν) (event : Event ν)
    (grounded : Grounded cfg start past d s) :
    Backed (Counted cfg start (event :: past) s d how p) (Decided cfg start (event :: past)) s := by
  intro x n found
  obtain ⟨known,fails⟩ := grounded x n found
  refine ⟨⟨fun fr member => ?_,known.distinct⟩,fun failed => (fails failed).later event⟩
  obtain ⟨other,heard⟩ := known.backed fr member
  exact ⟨other,heard.later event,.inl ⟨n,found,fr,member,rfl,rfl⟩⟩

theorem countedCloses {d : ν} {s t : Server ν} {how : Delivery ν} {p : Packet ν} {master : Bool}
    (headed : Headed s t p.sender master how.rc) :
    Closes cfg how.now (Counted cfg start past s d how p)
      (fun x => ∃ voters, Majority cfg start past s d how p x voters) t := by
  intro x reports recent enough
  refine ⟨reports.map FailReport.node,recent.distinct,?_,fun v inside => ?_⟩
  · rw [List.length_map]
    rw [neededQuorum,headed.even.size] at enough
    refine enough.trans (Nat.add_le_add_left ?_ _)
    split
    · rename_i voter
      rw [headed.even.myself] at voter
      rw [if_pos (headed.voter voter)]
    · exact Nat.zero_le _
  · obtain ⟨fr,member,rfl⟩ := List.mem_map.mp inside
    exact ⟨fr.time,recent.backed fr member⟩

/-- Processing the gossip of a packet: its accusations count for its sender, and what a majority of
accusations makes of a flag is a decision. -/
theorem configGrounded {d : ν} {k : Nat} {how : Delivery ν} {p : Packet ν} {t : Net ν} {pong master : Bool}
    {gossip : List (GossipEntry ν)} (run : Run cfg start past net) (honest : Honest cfg start past net)
    (sent : net.sent[k]? = some p) (target : p.target = d) (known : ((net.servers d).nodes.find p.sender).isSome)
    (taken : Takes (step cfg) net (.deliver d k how) t) (body : p.body = .config pong master gossip) :
    Grounded cfg start (.deliver d k how :: past) d (clusterProcessPacket cfg how (net.servers d) p).1 ∧
      ∀ x ∈ (clusterProcessPacket cfg how (net.servers d) p).2, Decided cfg start (.deliver d k how :: past) x := by
  have sincere := honest.sincere k p sent
  have headed := headerHeaded cfg how (net.servers d) p.sender pong master
  have self := honest.myself d
  have apart : p.sender ≠ d := by
    rw [← target]
    exact sincere.apart
  have processed : clusterProcessPacket cfg how (net.servers d) p =
      clusterProcessGossipSection cfg how.now how.blacklist p.sender
        (configHeader cfg how (net.servers d) p.sender pong master) gossip := by
    rw [clusterProcessPacket,body]
  have before := headed.backed (groundedCounted cfg start past how p (.deliver d k how) (honest.grounded d))
  have truthful : ∀ g ∈ gossip, Truthful (Counted cfg start (.deliver d k how :: past) (net.servers d) d how p)
      (Decided cfg start (.deliver d k how :: past)) how.now
      (configHeader cfg how (net.servers d) p.sender pong master) p.sender g := by
    intro g inside
    obtain ⟨accuses,fails⟩ := sincere.gossip pong master gossip body g inside
    refine ⟨fun voter failing _ => ⟨apart,?_,.inr ⟨rfl,rfl⟩⟩,fun failed => (fails failed).later _⟩
    have presents := (headed.sender (self.symm ▸ apart) known).symm.trans voter
    subst presents
    exact onceNow run taken ⟨k,how,p,rfl,sent,rfl,⟨rfl,target,pong,gossip,body,g,inside,rfl,failing⟩,
      accuses rfl failing⟩
  obtain ⟨backed,told⟩ := sectionBacked how.blacklist before (countedCloses headed)
    (by rw [headed.even.known,headed.even.myself,self]; exact honest.known d)
    (by rw [headed.even.known]; exact known) truthful
  rw [← processed] at backed told
  have decided : ∀ x ∈ (clusterProcessPacket cfg how (net.servers d) p).2,
      Decided cfg start (.deliver d k how :: past) x :=
    fun x flags => onceNow run taken ⟨d,k,how,p,rfl,sent,flags,told x flags⟩
  exact ⟨backed.imp (fun _ _ _ counted => ⟨counted.other,counted.heard⟩) fun x reason => reason.elim id (decided x),
    decided⟩

theorem deliverHonest {d : ν} {k : Nat} {how : Delivery ν} {t : Net ν} (run : Run cfg start past net)
    (honest : Honest cfg start past net) (taken : Takes (step cfg) net (.deliver d k how) t) :
    Honest cfg start (.deliver d k how :: past) t := by
  have done := taken
  simp only [Takes,step,bind,Option.bind_eq_some_iff] at done
  obtain ⟨p,sent,done⟩ := done
  split at done <;> try contradiction
  rename_i guard
  obtain ⟨target,known⟩ := guard
  rw [Dict.hasFind] at known
  cases Option.some.inj done
  have sincere := honest.sincere k p sent
  have self := honest.myself d
  cases body : p.body with
  | config pong master gossip =>
    obtain ⟨grounded,told⟩ := configGrounded run honest sent target known taken body
    have keeps : Keeps (configHeader cfg how (net.servers d) p.sender pong master)
        (clusterProcessPacket cfg how (net.servers d) p).1 := by
      rw [clusterProcessPacket,body]
      exact sectionKeeps how.blacklist _ p.sender gossip
    have headed := headerHeaded cfg how (net.servers d) p.sender pong master
    refine honestPut _ honest grounded ?_ ?_ ?_
    · rw [keeps.myself,headed.even.myself,self]
    · refine keeps.known d ?_
      rw [headed.even.known]
      exact honest.known d
    · intro i q there
      obtain ⟨x,inside,member⟩ := List.mem_flatMap.mp (List.mem_of_getElem? there)
      obtain ⟨b,chosen,rfl⟩ := List.mem_map.mp member
      have apart : b ≠ d := by simpa using (List.mem_filter.mp chosen).2
      refine ⟨Ne.symm apart,fun _ _ _ body => by simp at body,fun y body => ?_⟩
      simp only [Body.fail.injEq] at body
      subst body
      exact told x inside
  | fail about =>
    have first := updateEven (net.servers d) (fun n => (seenWeaker how.now n).name) p.sender
    have names (n : ClusterNode ν) : (failHandled how.now (net.servers d).myself n).name = n.name := by
      unfold failHandled
      split <;> rfl
    have even := first.trans (updateEven _ names about)
    have processed : clusterProcessPacket cfg how (net.servers d) p =
        (update (update (net.servers d) p.sender fun n => { n with dataReceived := how.now }) about
          (failHandled how.now (net.servers d).myself),[]) := by
      rw [← first.myself,clusterProcessPacket,body]
    rw [processed]
    refine honestPut [] honest (updateBacked (weakerBacked (groundedLater (honest.grounded d) _)
      (seenWeaker how.now) p.sender) names ?_ ?_) (even.myself.trans self) ?_ (by simp)
    · intro n
      unfold failHandled
      split <;> exact List.Sublist.refl _
    · exact fun n failed => .inr ((sincere.told about body).later _)
    · rw [even.known]
      exact honest.known d

theorem honestStep {event : Event ν} {t : Net ν} (run : Run cfg start past net)
    (honest : Honest cfg start past net) (taken : Takes (step cfg) net event t) :
    Honest cfg start (event :: past) t := by
  cases event with
  | deliver d k how => exact deliverHonest run honest taken
  | ping a b pong master about outbound now =>
    have done := taken
    simp only [Takes,step] at done
    split at done <;> try contradiction
    rename_i apart
    cases Option.some.inj done
    have sincere : ∀ i p, [(⟨a,b,.config pong master (gossipAbout (net.servers a) about)⟩ : Packet ν)][i]? = some p →
        Sincere cfg start (.ping a b pong master about outbound now :: past) (net.sent.length + i) p := by
      intro i p there
      cases i with
      | zero =>
        cases Option.some.inj there
        exact pingSincere run honest apart taken
      | succ i => simp at there
    have weaker (n : ClusterNode ν) : Weaker n { n with pingSent := now } := ⟨rfl,id,List.Sublist.refl _⟩
    split
    · have even := updateEven (net.servers a) (fun n => (weaker n).name) b
      refine honestPut _ honest (weakerBacked (groundedLater (honest.grounded a) _) weaker b)
        (even.myself.trans (honest.myself a)) ?_ sincere
      rw [even.known]
      exact honest.known a
    · exact honestPut _ honest (groundedLater (honest.grounded a) _) (honest.myself a) (honest.known a)
        sincere
  | cron a x now =>
    cases Option.some.inj taken
    have weaker := pfailWeaker cfg now (net.servers a).myself
    have even := updateEven (net.servers a) (fun n => (weaker n).name) x
    refine honestSame honest (weakerBacked (honest.grounded a) weaker x) even.myself ?_
    rw [even.known]
    exact honest.known a
  | reconfigure a rc =>
    cases Option.some.inj taken
    refine honestSame honest (mapBacked _ (honest.grounded a) (configuredWeaker _ rc)) rfl ?_
    rw [(configureEven _ rc).known]
    exact honest.known a
  | updateState a =>
    cases Option.some.inj taken
    exact honestSame honest (honest.grounded a) rfl (honest.known a)
  | forget a x now =>
    simp only [Takes,step] at taken
    split at taken <;> try contradiction
    rename_i other
    cases Option.some.inj taken
    obtain ⟨backed,known⟩ := forgetBacked cfg (s := net.servers a) (k := a) now (honest.grounded a) other
    refine honestSame honest backed rfl ?_
    rw [known]
    exact honest.known a

theorem runHonest (fresh : Fresh start) (run : Run cfg start past net) : Honest cfg start past net := by
  refine reachHistory (honestStart fresh) ?_ run
  intro past net event next before honest taken
  exact honestStep before honest taken

end

/-- The first packet in which a node's accusers become a majority has its effect: no node with the
flag PFAIL only is left with reports and a vote that are enough for FAIL, and a FAIL flag that the
packet sets is sent to every linked node. -/
structure Weighed (net t : Net ν) (d x : ν) (how : Delivery ν) : Prop where
  settled : Settled cfg how.now (t.servers d) x
  told : ∀ n m, (net.servers d).nodes.find x = some n → (t.servers d).nodes.find x = some m → n.fail = false →
    m.fail = true → ∀ b ∈ how.links, b ≠ d → (⟨d,b,.fail x⟩ : Packet ν) ∈ t.sent

theorem reportWeighed {start net t : Net ν} {past : List (Event ν)} (fresh : Fresh start)
    (run : Run cfg start past net) {d x : ν} {k : Nat} {how : Delivery ν}
    (taken : Takes (step cfg) net (.deliver d k how) t) {p : Packet ν} (sent : net.sent[k]? = some p) {pong : Bool}
    {gossip : List (GossipEntry ν)} (body : p.body = .config pong true gossip)
    (accused : ∃ g ∈ gossip, g.nodename = x ∧ g.failing = true) (known : ((net.servers d).nodes.find x).isSome)
    (other : x ≠ d) : Weighed cfg net t d x how := by
  have honest := runHonest fresh run
  have self := honest.myself d
  have done := taken
  simp only [Takes,step,bind,Option.bind_eq_some_iff] at done
  obtain ⟨q,same,done⟩ := done
  cases Option.some.inj (same.symm.trans sent)
  split at done <;> try contradiction
  rename_i guard
  obtain ⟨target,voter⟩ := guard
  rw [Dict.hasFind] at voter
  cases Option.some.inj done
  have apart : p.sender ≠ (net.servers d).myself := by
    rw [self,← target]
    exact (honest.sincere k p sent).apart
  have headed := headerHeaded cfg how (net.servers d) p.sender pong true
  have even := headed.even
  have processed : clusterProcessPacket cfg how (net.servers d) p =
      clusterProcessGossipSection cfg how.now how.blacklist p.sender
        (configHeader cfg how (net.servers d) p.sender pong true) gossip := by
    rw [clusterProcessPacket,body]
  have here : ∀ s packets, ({ net.put d s with sent := packets } : Net ν).servers d = s := by
    intro s packets
    simp [Net.put]
  constructor
  · rw [here,processed]
    refine sectionSettled how.blacklist ?_ (by rw [even.known]; exact known) (.inr ⟨accused,headed.sender apart voter,?_⟩) ?_
    · rw [even.known,even.myself,self]
      exact honest.known d
    · rw [even.myself,self]
      exact other
    · rw [even.known]
      exact voter
  · intro n m before after up failed b linked elsewhere
    rw [here,processed] at after
    obtain ⟨h,middle⟩ := Option.isSome_iff_exists.mp ((even.known x).trans known)
    -- The header of a packet sets no FAIL flag.
    have reasons : Backed (fun _ _ _ => True) (fun y => ∃ n, (net.servers d).nodes.find y = some n ∧ n.fail = true)
        (net.servers d) := fun y n found =>
      ⟨⟨fun _ _ => trivial,(honest.grounded d y n found).1.distinct⟩,fun flag => ⟨n,found,flag⟩⟩
    have told : x ∈ (clusterProcessGossipSection cfg how.now how.blacklist p.sender
        (configHeader cfg how (net.servers d) p.sender pong true) gossip).2 := by
      refine (sectionTold how.blacklist middle after failed).resolve_left fun flag => ?_
      obtain ⟨old,found,flag⟩ := (headed.backed reasons x h middle).2 flag
      rw [before] at found
      cases Option.some.inj found
      rw [up] at flag
      contradiction
    refine List.mem_append_right _ (List.mem_flatMap.mpr ⟨x,?_,?_⟩)
    · rw [processed]
      exact told
    · exact List.mem_map.mpr ⟨b,List.mem_filter.mpr ⟨linked,by simpa using elsewhere⟩,rfl⟩

end

section

inductive Trio where
  | a | b | c
  deriving DecidableEq

def trioNode (name : Trio) : ClusterNode Trio :=
  ⟨name,true,false,1,false,false,false,0,1,0,0,⟨[],0,0⟩,[]⟩

theorem trioDistinct : (([.a,.b,.c] : List Trio).map trioNode |>.map ClusterNode.name).Nodup := by decide

/-- Three masters that have pinged each other and got no answer yet. -/
def trio : Net Trio := ⟨fun name => ⟨name,3,⟨[.a,.b,.c].map trioNode,trioDistinct⟩⟩,[]⟩

theorem trioFresh : Fresh trio := by
  refine ⟨rfl,?_,fun _ => rfl,fun name => ?_⟩
  · intro holder x n found
    have member := (Dict.findMem found).1
    obtain ⟨y,_,rfl⟩ := List.mem_map.mp member
    exact ⟨rfl,rfl⟩
  · cases name <;> decide

def second : Config := ⟨1000⟩
def gossiped : Delivery Trio := ⟨6000,false,fun _ => false,[.b],⟨fun _ => 1,true⟩⟩

/-- Two of the masters find that the third one does not answer, and one of them tells the other. -/
def suspicion : List (Event Trio) := [.cron .a .c 5000,.cron .b .c 5000,.ping .b .a true true [.c] false 5000]

def suspected : Net Trio := (replay (step second) trio suspicion).getD trio

theorem suspectedRun : Run second trio suspicion.reverse suspected := replayReach rfl

def reported : Net Trio := (step second suspected (.deliver .a 0 gossiped)).getD suspected

theorem reportTaken : Takes (step second) suspected (.deliver .a 0 gossiped) reported := rfl

theorem reportWeighedMet : ∃ k ∈ suspected.sent[0]?, Weighed second suspected reported .a .c gossiped ∧ k.target = .a :=
  ⟨_,rfl,reportWeighed second trioFresh suspectedRun reportTaken rfl rfl ⟨_,List.mem_singleton.mpr rfl,rfl,rfl⟩ rfl
    (by decide),rfl⟩

end

end HpuCache.FailureDetection
