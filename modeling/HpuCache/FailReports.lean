import HpuCache.ByteText
import HpuCache.KeyedDict

/-! What one node knows of the failures of the others. A node that does not answer is flagged
PFAIL; the masters that report it as failing are kept in a list with the time of their last
report, and when they are a majority the flag becomes FAIL. -/
namespace HpuCache.FailReports
open ByteText KeyedDict

variable {ν : Type}

structure FailReport (ν : Type) where
  node : ν
  time : Int

structure Address where
  ip : Bytes
  port : Nat
  cport : Nat

/-- The fields of a `clusterNode` that failure detection reads. -/
structure ClusterNode (ν : Type) where
  name : ν
  master : Bool
  slave : Bool
  numslots : Int
  pfail : Bool
  fail : Bool
  noaddr : Bool
  failTime : Int
  pingSent : Int
  pongReceived : Int
  dataReceived : Int
  addr : Address
  failReports : List (FailReport ν)

abbrev NodeDict (ν : Type) := Dict (ClusterNode.name : ClusterNode ν → ν)

structure Server (ν : Type) where
  myself : ν
  size : Nat
  nodes : NodeDict ν

structure Config where
  clusterNodeTimeout : Int

def Config.maxtime (cfg : Config) : Int := cfg.clusterNodeTimeout * 2
def Config.undoTime (cfg : Config) : Int := cfg.clusterNodeTimeout * 2

/-- One element of the gossip section. -/
structure GossipEntry (ν : Type) where
  nodename : ν
  master : Bool
  slave : Bool
  pfail : Bool
  fail : Bool
  noaddr : Bool
  -- In seconds.
  pongReceived : Int
  addr : Address

def GossipEntry.failing (g : GossipEntry ν) : Bool := g.fail || g.pfail

section
variable [DecidableEq ν] (cfg : Config) (now : Int)

def Server.isMaster (s : Server ν) (name : ν) : Bool := (s.nodes.find name).any ClusterNode.master

def Server.store (s : Server ν) (n : ClusterNode ν) : Server ν := { s with nodes := s.nodes.replace n }

/-- The first report of the sender gets a new time; nothing when there is none. -/
def touchReport (sender : ν) : List (FailReport ν) → Option (List (FailReport ν))
  | [] => none
  | fr :: rest => if fr.node = sender then some ({ fr with time := now } :: rest) else (touchReport sender rest).map (fr :: ·)

def clusterNodeAddFailureReport (failing : ClusterNode ν) (sender : ν) : ClusterNode ν :=
  { failing with
    failReports := (touchReport now sender failing.failReports).getD (failing.failReports ++ [⟨sender,now⟩]) }

def clusterNodeCleanupFailureReports (node : ClusterNode ν) : ClusterNode ν :=
  { node with failReports := node.failReports.filter fun fr => ! decide (now - fr.time > cfg.maxtime) }

def clusterNodeDelFailureReport (node : ClusterNode ν) (sender : ν) : ClusterNode ν :=
  if node.failReports.any fun fr => decide (fr.node = sender) then
    clusterNodeCleanupFailureReports cfg now
      { node with failReports := node.failReports.eraseP fun fr => decide (fr.node = sender) }
  else node

def neededQuorum (s : Server ν) : Nat := s.size / 2 + 1

/-- This node is a voter too if it is a master. -/
def failures (s : Server ν) (node : ClusterNode ν) : Nat :=
  node.failReports.length + if s.isMaster s.myself then 1 else 0

/-- The node as it is left, and whether the whole cluster is told that it failed. -/
def markNodeAsFailingIfNeeded (s : Server ν) (node : ClusterNode ν) : ClusterNode ν × Bool :=
  if ! node.pfail then (node,false)
  else if node.fail then (node,false)
  else
    let node := clusterNodeCleanupFailureReports cfg now node
    if failures s node < neededQuorum s then (node,false)
    else ({ node with pfail := false, fail := true, failTime := now },true)

def clearNodeFailureIfNeeded (node : ClusterNode ν) : ClusterNode ν :=
  let cleared := if node.slave || node.numslots == 0 then { node with fail := false } else node
  if cleared.master && decide (cleared.numslots > 0) && decide (now - cleared.failTime > cfg.undoTime) then
    { cleared with fail := false }
  else cleared

/-- The pong time of another node is taken over while nothing speaks against the node. -/
def pongFromGossip (node : ClusterNode ν) (g : GossipEntry ν) : ClusterNode ν :=
  if ! g.failing && node.pingSent == 0 then
    let node := clusterNodeCleanupFailureReports cfg now node
    let pongtime := g.pongReceived * 1000
    if node.failReports.length = 0 ∧ pongtime ≤ now + 500 ∧ node.pongReceived < pongtime then
      { node with pongReceived := pongtime }
    else node
  else node

def addressFromGossip (node : ClusterNode ν) (g : GossipEntry ν) : ClusterNode ν :=
  if (node.fail || node.pfail) && ! g.noaddr && ! g.failing &&
      (! strcasecmpEqual node.addr.ip g.addr.ip || node.addr.port != g.addr.port || node.addr.cport != g.addr.cport) then
    { node with addr := g.addr, noaddr := false }
  else node

/-- The report of a master about another node than this one. -/
def reportFromGossip (s : Server ν) (sender : ν) (node : ClusterNode ν) (g : GossipEntry ν) : ClusterNode ν × Bool :=
  if s.isMaster sender && decide (node.name ≠ s.myself) then
    if g.failing then markNodeAsFailingIfNeeded cfg now s (clusterNodeAddFailureReport now node sender)
    else (clusterNodeDelFailureReport cfg now node sender,false)
  else (node,false)

def createClusterNode (g : GossipEntry ν) : ClusterNode ν :=
  ⟨g.nodename,g.master,g.slave,0,g.pfail,g.fail,g.noaddr,0,0,0,0,g.addr,[]⟩

/-- One element of the gossip section of a known sender, and the name that a FAIL message is sent about. -/
def gossipEntry (blacklist : ν → Bool) (sender : ν) (s : Server ν) (g : GossipEntry ν) : Server ν × List ν :=
  match s.nodes.find g.nodename with
  | some node =>
    let reported := reportFromGossip cfg now s sender node g
    (s.store (addressFromGossip (pongFromGossip cfg now reported.1 g) g),if reported.2 then [g.nodename] else [])
  | none =>
    if ! g.noaddr && ! blacklist g.nodename then (s.store (createClusterNode g),[]) else (s,[])

def clusterProcessGossipSection (blacklist : ν → Bool) (sender : ν) (s : Server ν) :
    List (GossipEntry ν) → Server ν × List ν
  | [] => (s,[])
  | g :: rest =>
    let first := gossipEntry cfg now blacklist sender s g
    let later := clusterProcessGossipSection blacklist sender first.1 rest
    (later.1,first.2 ++ later.2)

end

/-! The lists of reports. -/

section
variable {cfg : Config} {now : Int}

/-- Every report is about something that a relation knows of, and no node has two of them. -/
structure Known (R : ν → Int → Prop) (reports : List (FailReport ν)) : Prop where
  backed : ∀ fr ∈ reports, R fr.node fr.time
  distinct : (reports.map FailReport.node).Nodup

theorem Known.sublist {R : ν → Int → Prop} {some all : List (FailReport ν)} (known : Known R all)
    (part : some.Sublist all) : Known R some :=
  ⟨fun fr member => known.backed fr (part.subset member),known.distinct.sublist (part.map _)⟩

theorem knownNil {R : ν → Int → Prop} : Known R [] := ⟨by simp,by simp⟩

variable (cfg now) in
theorem cleanupSublist (node : ClusterNode ν) :
    (clusterNodeCleanupFailureReports cfg now node).failReports.Sublist node.failReports :=
  List.filter_sublist

/-- What is left after the cleanup is recent. -/
theorem cleanupRecent {node : ClusterNode ν} {fr : FailReport ν}
    (member : fr ∈ (clusterNodeCleanupFailureReports cfg now node).failReports) : now - fr.time ≤ cfg.maxtime := by
  have kept := (List.mem_filter.mp member).2
  simpa using kept

/-- A record after a step that sets no flag and takes no report in. -/
structure Follows (n m : ClusterNode ν) : Prop where
  name : m.name = n.name
  master : m.master = n.master
  fail : m.fail = n.fail
  pfail : m.pfail = n.pfail
  reports : m.failReports.Sublist n.failReports

theorem Follows.trans {n m k : ClusterNode ν} (first : Follows n m) (second : Follows m k) : Follows n k :=
  ⟨second.name.trans first.name,second.master.trans first.master,second.fail.trans first.fail,
    second.pfail.trans first.pfail,second.reports.trans first.reports⟩

theorem followsSame (n : ClusterNode ν) : Follows n n := ⟨rfl,rfl,rfl,rfl,List.Sublist.refl _⟩

theorem cleanupFollows (node : ClusterNode ν) : Follows node (clusterNodeCleanupFailureReports cfg now node) :=
  ⟨rfl,rfl,rfl,rfl,cleanupSublist _ _ node⟩

theorem pongFollows (node : ClusterNode ν) (g : GossipEntry ν) : Follows node (pongFromGossip cfg now node g) := by
  simp only [pongFromGossip]
  split
  · split
    · exact ⟨rfl,rfl,rfl,rfl,cleanupSublist _ _ node⟩
    · exact cleanupFollows node
  · exact followsSame node

theorem addressFollows (node : ClusterNode ν) (g : GossipEntry ν) : Follows node (addressFromGossip node g) := by
  unfold addressFromGossip
  split
  · exact ⟨rfl,rfl,rfl,rfl,List.Sublist.refl _⟩
  · exact followsSame node

theorem cleanupTwice (node : ClusterNode ν) : clusterNodeCleanupFailureReports cfg now
    (clusterNodeCleanupFailureReports cfg now node) = clusterNodeCleanupFailureReports cfg now node := by
  simp [clusterNodeCleanupFailureReports]

theorem cleanupKnown {P : ν → Int → Prop} {node : ClusterNode ν} (known : Known P node.failReports) :
    Known (fun v time => P v time ∧ now - time ≤ cfg.maxtime)
      (clusterNodeCleanupFailureReports cfg now node).failReports := by
  have rest := known.sublist (cleanupSublist cfg now node)
  exact ⟨fun fr member => ⟨rest.backed fr member,cleanupRecent member⟩,rest.distinct⟩

variable (cfg now) in
theorem cleanupMono {n m : ClusterNode ν} (part : m.failReports.Sublist n.failReports) :
    (clusterNodeCleanupFailureReports cfg now m).failReports.length ≤
      (clusterNodeCleanupFailureReports cfg now n).failReports.length :=
  (part.filter _).length_le

variable (cfg now) in
theorem gossipFollows (node : ClusterNode ν) (g : GossipEntry ν) :
    Follows node (addressFromGossip (pongFromGossip cfg now node g) g) :=
  (pongFollows node g).trans (addressFollows _ g)

variable [DecidableEq ν]

theorem touchNone {sender : ν} {reports : List (FailReport ν)} :
    touchReport now sender reports = none ↔ sender ∉ reports.map FailReport.node := by
  induction reports with
  | nil => simp [touchReport]
  | cons fr rest ih =>
    by_cases here : fr.node = sender
    · simp [touchReport,here]
    · simp only [touchReport,here,if_false,Option.map_eq_none_iff,ih,List.map_cons,List.mem_cons,not_or]
      exact ⟨fun absent => ⟨Ne.symm here,absent⟩,And.right⟩

theorem touchSome {sender : ν} {reports touched : List (FailReport ν)}
    (done : touchReport now sender reports = some touched) :
    touched.map FailReport.node = reports.map FailReport.node ∧
      ∀ fr ∈ touched, fr ∈ reports ∨ fr.node = sender ∧ fr.time = now := by
  induction reports generalizing touched with
  | nil => simp [touchReport] at done
  | cons fr rest ih =>
    by_cases here : fr.node = sender
    · simp only [touchReport,here,if_true,Option.some.injEq] at done
      subst done
      refine ⟨by simp [here],fun other member => ?_⟩
      rcases List.mem_cons.mp member with rfl | inside
      · exact .inr ⟨rfl,rfl⟩
      · exact .inl (List.mem_cons_of_mem _ inside)
    · simp only [touchReport,here,if_false,Option.map_eq_some_iff] at done
      obtain ⟨later,touched,rfl⟩ := done
      obtain ⟨names,sources⟩ := ih touched
      refine ⟨by simp [names],fun other member => ?_⟩
      rcases List.mem_cons.mp member with rfl | inside
      · exact .inl (by simp)
      · exact (sources other inside).imp (List.mem_cons_of_mem _) id

theorem addKnown {R : ν → Int → Prop} {node : ClusterNode ν} {sender : ν} (known : Known R node.failReports)
    (reported : R sender now) : Known R (clusterNodeAddFailureReport now node sender).failReports := by
  unfold clusterNodeAddFailureReport
  cases touched : touchReport now sender node.failReports with
  | none =>
    have absent := touchNone.mp touched
    refine ⟨fun fr member => ?_,?_⟩
    · rcases List.mem_append.mp member with old | new
      · exact known.backed fr old
      · rw [List.mem_singleton.mp new]
        exact reported
    · rw [Option.getD_none,List.map_append,List.nodup_append]
      refine ⟨known.distinct,by simp,?_⟩
      intro k inside last same clash
      simp only [List.map_cons,List.map_nil,List.mem_singleton] at same
      exact absent (same ▸ clash ▸ inside)
  | some reports =>
    obtain ⟨names,sources⟩ := touchSome touched
    refine ⟨fun fr member => ?_,?_⟩
    · rcases sources fr member with old | ⟨rfl,same⟩
      · exact known.backed fr old
      · rw [same]
        exact reported
    · rw [Option.getD_some,names]
      exact known.distinct

theorem delSublist (node : ClusterNode ν) (sender : ν) :
    (clusterNodeDelFailureReport cfg now node sender).failReports.Sublist node.failReports := by
  unfold clusterNodeDelFailureReport
  split
  · exact (cleanupSublist _ _ _).trans List.eraseP_sublist
  · exact List.Sublist.refl _

variable (cfg now) in
theorem delFollows (node : ClusterNode ν) (sender : ν) :
    Follows node (clusterNodeDelFailureReport cfg now node sender) := by
  refine ⟨?_,?_,?_,?_,delSublist node sender⟩ <;> (unfold clusterNodeDelFailureReport; split <;> rfl)

/-- The flag is set by a majority of recent reports, or it is as before. -/
structure Marked (cfg : Config) (now : Int) (s : Server ν) (n : ClusterNode ν) (marked : ClusterNode ν × Bool) :
    Prop where
  name : marked.1.name = n.name
  master : marked.1.master = n.master
  reports : marked.1.failReports.Sublist n.failReports
  kept : marked.2 = false → marked.1.fail = n.fail
  agreed : marked.2 = true → neededQuorum s ≤ failures s (clusterNodeCleanupFailureReports cfg now n)
  -- A record is never left with the flag missing while the reports are enough for it.
  settled : marked.1.pfail = true → marked.1.fail = false →
    failures s (clusterNodeCleanupFailureReports cfg now marked.1) < neededQuorum s

variable (cfg now) in
theorem markMarked (s : Server ν) (node : ClusterNode ν) :
    Marked cfg now s node (markNodeAsFailingIfNeeded cfg now s node) := by
  unfold markNodeAsFailingIfNeeded
  cases timedOut : node.pfail with
  | false => exact ⟨rfl,rfl,List.Sublist.refl _,fun _ => rfl,by simp,by simp [timedOut]⟩
  | true =>
    cases failed : node.fail with
    | true => exact ⟨rfl,rfl,List.Sublist.refl _,fun _ => rfl,by simp,by simp [failed]⟩
    | false =>
      by_cases few : failures s (clusterNodeCleanupFailureReports cfg now node) < neededQuorum s
      · simp only [few,if_true]
        refine ⟨rfl,rfl,cleanupSublist _ _ node,fun _ => rfl,by simp,fun _ _ => ?_⟩
        simpa [cleanupTwice] using few
      · simp only [few,if_false]
        exact ⟨rfl,rfl,cleanupSublist _ _ node,by simp,fun _ => Nat.not_lt.mp few,by simp⟩

variable {R : ν → ν → Int → Prop} {F C : ν → Prop}

/-- Every report of a server was made, and every FAIL flag has its reason. -/
def Backed (R : ν → ν → Int → Prop) (F : ν → Prop) (s : Server ν) : Prop :=
  ∀ x n, s.nodes.find x = some n → Known (fun v time => R v x time) n.failReports ∧ (n.fail = true → F x)

/-- Enough recent reports are a majority, with the vote of this node if it is a master. -/
def Closes (cfg : Config) (now : Int) (R : ν → ν → Int → Prop) (C : ν → Prop) (s : Server ν) : Prop :=
  ∀ x reports, Known (fun v time => R v x time ∧ now - time ≤ cfg.maxtime) reports →
    neededQuorum s ≤ reports.length + (if s.isMaster s.myself then 1 else 0) → C x

/-- What the gossip of a packet leaves as it was. -/
structure Keeps (s t : Server ν) : Prop where
  myself : t.myself = s.myself
  size : t.size = s.size
  master : ∀ k, (s.nodes.find k).isSome → t.isMaster k = s.isMaster k
  known : ∀ k, (s.nodes.find k).isSome → (t.nodes.find k).isSome

theorem Keeps.refl (s : Server ν) : Keeps s s := ⟨rfl,rfl,fun _ _ => rfl,fun _ => id⟩

theorem Keeps.trans {s t u : Server ν} (first : Keeps s t) (second : Keeps t u) : Keeps s u :=
  ⟨second.myself.trans first.myself,second.size.trans first.size,
    fun k known => (second.master k (first.known k known)).trans (first.master k known),
    fun k known => second.known k (first.known k known)⟩

theorem storeFind (s : Server ν) (n : ClusterNode ν) (k : ν) :
    (s.store n).nodes.find k = if n.name = k then some n else s.nodes.find k := Dict.findReplace s.nodes n k

theorem storeKeeps {s : Server ν} {n m : ClusterNode ν} (found : s.nodes.find n.name = some n)
    (name : m.name = n.name) (master : m.master = n.master) : Keeps s (s.store m) := by
  refine ⟨rfl,rfl,fun k _ => ?_,fun k known => ?_⟩
  · rw [Server.isMaster,Server.isMaster,storeFind,name]
    split
    · rename_i same
      rw [← same,found,Option.any_some,Option.any_some,master]
    · rfl
  · rw [storeFind]
    split
    · rfl
    · exact known

theorem freshKeeps {s : Server ν} {m : ClusterNode ν} (absent : s.nodes.find m.name = none) : Keeps s (s.store m) := by
  have other (k : ν) (known : (s.nodes.find k).isSome) : (s.store m).nodes.find k = s.nodes.find k := by
    rw [storeFind,if_neg]
    rintro rfl
    rw [absent] at known
    contradiction
  refine ⟨rfl,rfl,fun k known => ?_,fun k known => ?_⟩
  · rw [Server.isMaster,Server.isMaster,other k known]
  · rw [other k known]
    exact known

theorem storeBacked {s : Server ν} {m : ClusterNode ν} (backed : Backed R F s)
    (known : Known (fun v time => R v m.name time) m.failReports) (fails : m.fail = true → F m.name) :
    Backed R F (s.store m) := by
  intro x n found
  rw [storeFind] at found
  split at found
  · rename_i same
    cases Option.some.inj found
    subst same
    exact ⟨known,fails⟩
  · exact backed x n found

/-- A record after the report of the sender. -/
structure Reported (R : ν → ν → Int → Prop) (C : ν → Prop) (n : ClusterNode ν) (reported : ClusterNode ν × Bool) :
    Prop where
  name : reported.1.name = n.name
  master : reported.1.master = n.master
  known : Known (fun v time => R v n.name time) reported.1.failReports
  told : reported.2 = true → C n.name

theorem reportTold {s : Server ν} {sender : ν} {node : ClusterNode ν} {g : GossipEntry ν}
    (failed : (reportFromGossip cfg now s sender node g).1.fail = true) :
    node.fail = true ∨ (reportFromGossip cfg now s sender node g).2 = true := by
  unfold reportFromGossip at failed ⊢
  split at failed
  · rename_i voter
    rw [if_pos voter]
    split at failed
    · rename_i failing
      rw [if_pos failing]
      cases told : (markNodeAsFailingIfNeeded cfg now s (clusterNodeAddFailureReport now node sender)).2 with
      | true => exact .inr rfl
      | false =>
        rw [(markMarked _ _ s _).kept told] at failed
        exact .inl failed
    · rw [(delFollows _ _ node sender).fail] at failed
      exact .inl failed
  · exact .inl failed

theorem reportReported {s : Server ν} {sender : ν} {node : ClusterNode ν} {g : GossipEntry ν}
    (known : Known (fun v time => R v node.name time) node.failReports) (closes : Closes cfg now R C s)
    (accuses : s.isMaster sender = true → g.failing = true → node.name ≠ s.myself → R sender node.name now) :
    Reported R C node (reportFromGossip cfg now s sender node g) := by
  unfold reportFromGossip
  split
  · rename_i voter
    obtain ⟨master,other⟩ := Bool.and_eq_true_iff.mp voter
    split
    · rename_i failing
      have added := addKnown known (accuses master failing (of_decide_eq_true other))
      have marked := markMarked cfg now s (clusterNodeAddFailureReport now node sender)
      exact ⟨marked.name,marked.master,added.sublist marked.reports,
        fun told => closes node.name _ (cleanupKnown added) (marked.agreed told)⟩
    · have follows := delFollows cfg now node sender
      exact ⟨follows.name,follows.master,known.sublist follows.reports,fun told => Bool.noConfusion told⟩
  · exact ⟨rfl,rfl,known,fun told => Bool.noConfusion told⟩

/-- What the gossip of one packet says is true in the sense of the two relations. -/
structure Truthful (R : ν → ν → Int → Prop) (F : ν → Prop) (now : Int) (s : Server ν) (sender : ν)
    (g : GossipEntry ν) : Prop where
  accuses : s.isMaster sender = true → g.failing = true → g.nodename ≠ s.myself → R sender g.nodename now
  fails : g.fail = true → F g.nodename

variable (cfg now) in
theorem reportRole (s : Server ν) (sender : ν) (node : ClusterNode ν) (g : GossipEntry ν) :
    (reportFromGossip cfg now s sender node g).1.name = node.name ∧
      (reportFromGossip cfg now s sender node g).1.master = node.master := by
  unfold reportFromGossip
  split
  · split
    · exact ⟨(markMarked _ _ s _).name,(markMarked _ _ s _).master⟩
    · exact ⟨(delFollows _ _ node sender).name,(delFollows _ _ node sender).master⟩
  · exact ⟨rfl,rfl⟩

variable (cfg now) in
theorem entryKeeps (blacklist : ν → Bool) (s : Server ν) (sender : ν) (g : GossipEntry ν) :
    Keeps s (gossipEntry cfg now blacklist sender s g).1 := by
  unfold gossipEntry
  cases found : s.nodes.find g.nodename with
  | none =>
    dsimp only
    split
    · exact freshKeeps (show s.nodes.find (createClusterNode g).name = none from found)
    · exact Keeps.refl s
  | some node =>
    have name := (Dict.findMem found).2
    rw [← name] at found
    obtain ⟨same,master⟩ := reportRole cfg now s sender node g
    have follows := gossipFollows cfg now (reportFromGossip cfg now s sender node g).1 g
    exact storeKeeps found (follows.name.trans same) (follows.master.trans master)

theorem sectionKeeps (blacklist : ν → Bool) (s : Server ν) (sender : ν) (gossip : List (GossipEntry ν)) :
    Keeps s (clusterProcessGossipSection cfg now blacklist sender s gossip).1 := by
  induction gossip generalizing s with
  | nil => exact Keeps.refl s
  | cons g rest ih => exact (entryKeeps _ _ blacklist s sender g).trans (ih _)

theorem Backed.imp {R' : ν → ν → Int → Prop} {F' : ν → Prop} {s : Server ν} (backed : Backed R F s)
    (more : ∀ v x time, R v x time → R' v x time) (reasons : ∀ x, F x → F' x) : Backed R' F' s := by
  intro x n found
  obtain ⟨known,fails⟩ := backed x n found
  exact ⟨⟨fun fr member => more _ _ _ (known.backed fr member),known.distinct⟩,fun failed => reasons x (fails failed)⟩

/-- A flag that was not there before is one that everybody is told of. -/
theorem entryBacked {s : Server ν} {sender : ν} {g : GossipEntry ν} (blacklist : ν → Bool) (backed : Backed R F s)
    (closes : Closes cfg now R C s) (truthful : Truthful R F now s sender g) :
    Backed R (fun x => F x ∨ x ∈ (gossipEntry cfg now blacklist sender s g).2)
        (gossipEntry cfg now blacklist sender s g).1 ∧
      ∀ x ∈ (gossipEntry cfg now blacklist sender s g).2, C x := by
  have before (told : List ν) : Backed R (fun x => F x ∨ x ∈ told) s := backed.imp (fun _ _ _ => id) fun _ => .inl
  unfold gossipEntry
  cases found : s.nodes.find g.nodename with
  | none =>
    dsimp only
    split
    · exact ⟨storeBacked (before []) knownNil fun failed => .inl (truthful.fails failed),by simp⟩
    · exact ⟨before [],by simp⟩
  | some node =>
    have name := (Dict.findMem found).2
    obtain ⟨known,fails⟩ := backed g.nodename node found
    rw [← name] at known fails found
    have truth := truthful.accuses
    rw [← name] at truth
    have reported := reportReported (g := g) known closes truth
    have follows := gossipFollows cfg now (reportFromGossip cfg now s sender node g).1 g
    have sameName := follows.name.trans reported.name
    refine ⟨storeBacked (before _) ?_ ?_,?_⟩
    · rw [sameName]
      exact reported.known.sublist follows.reports
    · intro fail
      rw [sameName]
      rw [follows.fail] at fail
      rcases reportTold fail with old | told
      · exact .inl (fails old)
      · exact .inr (by simp [told,name])
    · intro x told
      dsimp only at told
      split at told
      · rename_i sent
        rw [List.mem_singleton.mp told,← name]
        exact reported.told sent
      · contradiction

/-- The gossip section as a whole. -/
theorem sectionBacked {s : Server ν} {sender : ν} {gossip : List (GossipEntry ν)} (blacklist : ν → Bool)
    (backed : Backed R F s) (closes : Closes cfg now R C s) (myself : (s.nodes.find s.myself).isSome)
    (known : (s.nodes.find sender).isSome) (truthful : ∀ g ∈ gossip, Truthful R F now s sender g) :
    Backed R (fun x => F x ∨ x ∈ (clusterProcessGossipSection cfg now blacklist sender s gossip).2)
        (clusterProcessGossipSection cfg now blacklist sender s gossip).1 ∧
      ∀ x ∈ (clusterProcessGossipSection cfg now blacklist sender s gossip).2, C x := by
  induction gossip generalizing s F with
  | nil => exact ⟨backed.imp (fun _ _ _ => id) fun _ => .inl,by simp [clusterProcessGossipSection]⟩
  | cons g rest ih =>
    have keeps := entryKeeps cfg now blacklist s sender g
    obtain ⟨backed,told⟩ := entryBacked blacklist backed closes (truthful g (by simp))
    have closes : Closes cfg now R C (gossipEntry cfg now blacklist sender s g).1 := by
      intro x reports recent enough
      refine closes x reports recent ?_
      rwa [neededQuorum,keeps.size,keeps.myself,keeps.master s.myself myself] at enough
    have later : ∀ g' ∈ rest, Truthful R (fun x => F x ∨ x ∈ (gossipEntry cfg now blacklist sender s g).2) now
        (gossipEntry cfg now blacklist sender s g).1 sender g' := by
      intro g' inside
      have truth := truthful g' (by simp [inside])
      refine ⟨?_,fun failed => .inl (truth.fails failed)⟩
      rw [keeps.master sender known,keeps.myself]
      exact truth.accuses
    obtain ⟨backed,others⟩ := ih backed closes (by rw [keeps.myself]; exact keeps.known _ myself)
      (keeps.known _ known) later
    refine ⟨backed.imp (fun _ _ _ => id) fun x reason => ?_,fun x member => ?_⟩
    · rw [clusterProcessGossipSection,List.mem_append,← or_assoc]
      exact reason
    · rcases List.mem_append.mp member with here | there
      · exact told x here
      · exact others x there

/-- A node is not left flagged PFAIL only while the recent reports and the own vote are a majority. -/
def Settled (cfg : Config) (now : Int) (s : Server ν) (x : ν) : Prop :=
  ∀ n, s.nodes.find x = some n → n.pfail = true → n.fail = false →
    failures s (clusterNodeCleanupFailureReports cfg now n) < neededQuorum s

theorem keepsFailures {s t : Server ν} (keeps : Keeps s t) (myself : (s.nodes.find s.myself).isSome) (n : ClusterNode ν) :
    failures t n = failures s n ∧ neededQuorum t = neededQuorum s := by
  rw [failures,failures,neededQuorum,neededQuorum,keeps.myself,keeps.master _ myself,keeps.size]
  exact ⟨rfl,rfl⟩

variable (cfg now) in
/-- Once the reports about a node were weighed, the rest of the gossip adds nothing that was not. -/
theorem reportSettled {s : Server ν} {sender : ν} (node : ClusterNode ν) {g : GossipEntry ν}
    (before : g.failing = false ∨ s.isMaster sender = false ∨ node.name = s.myself → node.pfail = true →
      node.fail = false → failures s (clusterNodeCleanupFailureReports cfg now node) < neededQuorum s)
    (timedOut : (reportFromGossip cfg now s sender node g).1.pfail = true)
    (up : (reportFromGossip cfg now s sender node g).1.fail = false) :
    failures s (clusterNodeCleanupFailureReports cfg now (reportFromGossip cfg now s sender node g).1) <
      neededQuorum s := by
  unfold reportFromGossip at timedOut up ⊢
  split at timedOut
  · rename_i voter
    rw [if_pos voter] at up ⊢
    split at timedOut
    · rename_i failing
      rw [if_pos failing] at up ⊢
      exact (markMarked cfg now s (clusterNodeAddFailureReport now node sender)).settled timedOut up
    · rename_i silent
      rw [if_neg silent] at up ⊢
      have follows := delFollows cfg now node sender
      have fewer := cleanupMono cfg now follows.reports
      rw [follows.pfail] at timedOut
      rw [follows.fail] at up
      have bound := before (.inl (by simpa using silent)) timedOut up
      simp only [failures] at bound ⊢
      omega
  · rename_i silent
    rw [if_neg silent] at up ⊢
    refine before (.inr ?_) timedOut up
    by_cases master : s.isMaster sender = true
    · exact .inr (by simpa [master] using silent)
    · exact .inl (Bool.eq_false_iff.mpr master)

theorem entrySettled {s : Server ν} {sender x : ν} {g : GossipEntry ν} (blacklist : ν → Bool)
    (myself : (s.nodes.find s.myself).isSome) (known : (s.nodes.find x).isSome)
    (before : Settled cfg now s x ∨ g.nodename = x ∧ g.failing = true ∧ s.isMaster sender = true ∧ x ≠ s.myself) :
    Settled cfg now (gossipEntry cfg now blacklist sender s g).1 x := by
  intro n found timedOut up
  have keeps := entryKeeps cfg now blacklist s sender g
  rw [(keepsFailures keeps myself _).1,(keepsFailures keeps myself n).2]
  unfold gossipEntry at found
  cases old : s.nodes.find g.nodename with
  | none =>
    have other : g.nodename ≠ x := by
      rintro rfl
      rw [old] at known
      contradiction
    have same : s.nodes.find x = some n := by
      simp only [old] at found
      split at found
      · rwa [storeFind,if_neg (show ¬ (createClusterNode g).name = x from other)] at found
      · exact found
    exact before.resolve_right (fun new => other new.1) n same timedOut up
  | some node =>
    have name := (Dict.findMem old).2
    rw [← name] at old
    have follows := gossipFollows cfg now (reportFromGossip cfg now s sender node g).1 g
    simp only [show s.nodes.find g.nodename = some node by rw [← name]; exact old,storeFind,follows.name,(reportRole _ _ s sender node g).1] at found
    split at found
    · rename_i here
      cases Option.some.inj found
      rw [follows.pfail] at timedOut
      rw [follows.fail] at up
      have fewer := cleanupMono cfg now follows.reports
      have bound := reportSettled cfg now node (g := g) ?_ timedOut up
      · simp only [failures] at bound ⊢
        omega
      · intro silent pfail fail
        rcases before with settled | ⟨_,failing,master,other⟩
        · exact settled node (here ▸ old) pfail fail
        · rcases silent with calm | slave | self
          · exact absurd failing (by simp [calm])
          · exact absurd master (by simp [slave])
          · exact absurd (here.symm.trans self) other
    · rename_i other
      exact before.resolve_right (fun new => other (name.trans new.1)) n found timedOut up

/-- The reports of a packet are weighed before it is done. -/
theorem sectionSettled {s : Server ν} {sender x : ν} {gossip : List (GossipEntry ν)} (blacklist : ν → Bool)
    (myself : (s.nodes.find s.myself).isSome) (known : (s.nodes.find x).isSome)
    (before : Settled cfg now s x ∨
      (∃ g ∈ gossip, g.nodename = x ∧ g.failing = true) ∧ s.isMaster sender = true ∧ x ≠ s.myself)
    (voter : (s.nodes.find sender).isSome) :
    Settled cfg now (clusterProcessGossipSection cfg now blacklist sender s gossip).1 x := by
  induction gossip generalizing s with
  | nil =>
    rcases before with settled | ⟨⟨g,inside,_⟩,_⟩
    · exact settled
    · simp at inside
  | cons g rest ih =>
    have keeps := entryKeeps cfg now blacklist s sender g
    refine ih (by rw [keeps.myself]; exact keeps.known _ myself) (keeps.known _ known) ?_ (keeps.known _ voter)
    rcases before with settled | ⟨⟨accusation,inside,about⟩,master,other⟩
    · exact .inl (entrySettled blacklist myself known (.inl settled))
    · rcases List.mem_cons.mp inside with rfl | later
      · exact .inl (entrySettled blacklist myself known (.inr ⟨about.1,about.2,master,other⟩))
      · refine .inr ⟨⟨accusation,later,about⟩,?_,by rw [keeps.myself]; exact other⟩
        rw [keeps.master sender voter]
        exact master

/-- A flag that the gossip of a packet sets is announced. -/
theorem entryTold {s : Server ν} {sender x : ν} {g : GossipEntry ν} (blacklist : ν → Bool) {n m : ClusterNode ν}
    (before : s.nodes.find x = some n) (after : (gossipEntry cfg now blacklist sender s g).1.nodes.find x = some m)
    (failed : m.fail = true) : n.fail = true ∨ x ∈ (gossipEntry cfg now blacklist sender s g).2 := by
  unfold gossipEntry at after ⊢
  cases old : s.nodes.find g.nodename with
  | none =>
    have other : g.nodename ≠ x := by
      rintro rfl
      rw [old] at before
      contradiction
    simp only [old] at after
    split at after
    · rw [storeFind,if_neg (show ¬ (createClusterNode g).name = x from other),before] at after
      cases Option.some.inj after
      exact .inl failed
    · rw [before] at after
      cases Option.some.inj after
      exact .inl failed
  | some node =>
    have name := (Dict.findMem old).2
    have follows := gossipFollows cfg now (reportFromGossip cfg now s sender node g).1 g
    simp only [old,storeFind,follows.name,(reportRole _ _ s sender node g).1,name] at after ⊢
    split at after
    · rename_i here
      cases Option.some.inj after
      rw [here,before] at old
      cases Option.some.inj old
      rw [follows.fail] at failed
      refine (reportTold failed).imp id fun told => ?_
      simp [told,here]
    · rw [before] at after
      cases Option.some.inj after
      exact .inl failed

theorem sectionTold {s : Server ν} {sender x : ν} {gossip : List (GossipEntry ν)} (blacklist : ν → Bool)
    {n m : ClusterNode ν} (before : s.nodes.find x = some n)
    (after : (clusterProcessGossipSection cfg now blacklist sender s gossip).1.nodes.find x = some m)
    (failed : m.fail = true) :
    n.fail = true ∨ x ∈ (clusterProcessGossipSection cfg now blacklist sender s gossip).2 := by
  induction gossip generalizing s n with
  | nil =>
    rw [clusterProcessGossipSection,before] at after
    cases Option.some.inj after
    exact .inl failed
  | cons g rest ih =>
    have known := (entryKeeps cfg now blacklist s sender g).known x (by simp [before])
    obtain ⟨k,middle⟩ := Option.isSome_iff_exists.mp known
    rcases ih middle after with early | late
    · exact (entryTold blacklist before middle early).imp id (List.mem_append_left _)
    · exact .inr (List.mem_append_right _ late)

end

end HpuCache.FailReports
