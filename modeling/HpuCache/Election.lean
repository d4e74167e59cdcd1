import HpuCache.KeySlot
import Mathlib.Data.Finset.Card
import Mathlib.Logic.Function.Basic

/-! The election by which a slave replaces its master: it schedules an election, asks
for votes in a new epoch, counts the acknowledgements and takes over with a quorum.
What a node knows of its neighbours and the clock is decided anew at every step. Epochs are
numbers that do not wrap, where the source has 64 bits for them. -/
namespace HpuCache.Election
open KeySlot

variable {Node : Type} [DecidableEq Node]

inductive MsgType where
  | failoverAuthRequest | failoverAuthAck | other
  deriving DecidableEq

structure Msg (Node : Type) where
  type : MsgType
  sender : Node
  target : Node
  currentEpoch : Nat
  configEpoch : Nat
  myslots : List Slot
  forceack : Bool
  deriving DecidableEq

/-- The fields of the cluster state that elections write, and the own `configEpoch`. -/
structure Voter (Node : Type) where
  currentEpoch : Nat
  lastVoteEpoch : Nat
  failoverAuthTime : Int
  failoverAuthCount : Nat
  failoverAuthSent : Bool
  failoverAuthRank : Nat
  failoverAuthEpoch : Nat
  configEpoch : Nat
  votedTime : Node → Int

structure Saved where
  currentEpoch : Nat
  lastVoteEpoch : Nat
  configEpoch : Nat
  ordered : lastVoteEpoch ≤ currentEpoch

/-- `clusterInit` leaves `failover_auth_sent` as the allocation found it. -/
def clusterInit (saved : Saved) (sent : Bool) : Voter Node :=
  { currentEpoch := saved.currentEpoch, lastVoteEpoch := saved.lastVoteEpoch, failoverAuthTime := 0
    failoverAuthCount := 0, failoverAuthSent := sent, failoverAuthRank := 0, failoverAuthEpoch := 0
    configEpoch := saved.configEpoch, votedTime := fun _ => 0 }

structure MasterView where
  failed : Bool
  configEpoch : Nat
  slots : List Slot

/-- What `clusterHandleSlaveFailover` reads beside the election state. -/
structure FailoverView where
  mstime : Int
  clusterNodeTimeout : Int
  size : Nat
  myselfMaster : Bool
  slaveof : Option MasterView
  mfEnd : Bool
  mfCanStart : Bool
  slaveNoFailover : Bool
  dataAge : Int
  slaveValidityFactor : Int
  replPingSlavePeriod : Int
  slaveRank : Nat
  random : Nat

namespace FailoverView
variable (v : FailoverView)

def manualFailover : Bool := v.mfEnd && v.mfCanStart
def authTimeout : Int := max (v.clusterNodeTimeout * 2) 2000
def authRetryTime : Int := v.authTimeout * 2

/-- A slave of a master that serves slots and is down, or a manual failover. -/
def mayStart : Bool :=
  match v.slaveof with
  | none => false
  | some master => !(v.myselfMaster || (!master.failed && !v.manualFailover) ||
      (v.slaveNoFailover && !v.manualFailover) || master.slots.isEmpty)

def dataTooOld : Bool :=
  let dataAge := if v.dataAge > v.clusterNodeTimeout then v.dataAge - v.clusterNodeTimeout else v.dataAge
  v.slaveValidityFactor ≠ 0 &&
    dataAge > v.replPingSlavePeriod * 1000 + v.clusterNodeTimeout * v.slaveValidityFactor && !v.manualFailover

end FailoverView

/-- A new election is scheduled; the votes counted so far are forgotten. -/
def scheduled (v : FailoverView) (m : Voter Node) : Voter Node :=
  { m with
    failoverAuthCount := 0
    failoverAuthSent := false
    failoverAuthRank := if v.mfEnd then 0 else v.slaveRank
    failoverAuthTime := if v.mfEnd then v.mstime else v.mstime + 500 + v.random % 500 + v.slaveRank * 1000 }

def rankUpdated (v : FailoverView) (m : Voter Node) : Voter Node :=
  if !m.failoverAuthSent && !v.mfEnd && m.failoverAuthRank < v.slaveRank then
    { m with
      failoverAuthTime := m.failoverAuthTime + (v.slaveRank - m.failoverAuthRank : Int) * 1000
      failoverAuthRank := v.slaveRank }
  else m

/-- The scheduled election is on: it is not waiting and not too old. -/
def electionOpen (v : FailoverView) (m : Voter Node) : Bool :=
  v.mayStart && !v.dataTooOld && !(v.mstime - m.failoverAuthTime > v.authRetryTime) &&
    !(v.mstime < (rankUpdated v m).failoverAuthTime) && !(v.mstime - m.failoverAuthTime > v.authTimeout)

inductive Action where
  | rest | request | win
  deriving DecidableEq

def clusterHandleSlaveFailover (v : FailoverView) (m : Voter Node) : Voter Node × Action :=
  let authAge := v.mstime - m.failoverAuthTime
  let neededQuorum := v.size / 2 + 1
  if !v.mayStart then (m,.rest)
  else if v.dataTooOld then (m,.rest)
  else if authAge > v.authRetryTime then (scheduled v m,.rest)
  else
    let m := rankUpdated v m
    if v.mstime < m.failoverAuthTime then (m,.rest)
    else if authAge > v.authTimeout then (m,.rest)
    else if !m.failoverAuthSent then
      -- The counter is not reset here, only where the election was scheduled.
      ({ m with currentEpoch := m.currentEpoch + 1, failoverAuthEpoch := m.currentEpoch + 1, failoverAuthSent := true },
        .request)
    else if m.failoverAuthCount ≥ neededQuorum then
      ({ m with configEpoch := max m.configEpoch m.failoverAuthEpoch },.win)
    else (m,.rest)

def clusterRequestFailoverAuth (self : Node) (links : List Node) (v : FailoverView)
    (m : Voter Node) : List (Msg Node) :=
  links.map fun node => ⟨.failoverAuthRequest,self,node,m.currentEpoch,(v.slaveof.map MasterView.configEpoch).getD m.configEpoch,
    (v.slaveof.map MasterView.slots).getD [],v.mfEnd⟩

structure PacketView (Node : Type) where
  mstime : Int
  clusterNodeTimeout : Int
  myselfSlave : Bool
  myslots : List Slot
  slotEpoch : Slot → Option Nat
  senderKnown : Bool
  senderInHandshake : Bool
  senderLinked : Bool
  senderMaster : Bool
  senderNumslots : Nat
  senderSlaveof : Option (Node × Bool)

def clusterSendFailoverAuthIfNeeded (v : PacketView Node) (request : Msg Node) (m : Voter Node) : Option (Voter Node) :=
  if v.myselfSlave || v.myslots.isEmpty then none
  else if request.currentEpoch < m.currentEpoch then none
  else if m.lastVoteEpoch = m.currentEpoch then none
  else match v.senderSlaveof with
    | none => none
    | some (master,failed) =>
      if v.senderMaster || (!failed && !request.forceack) then none
      else if v.mstime - m.votedTime master < v.clusterNodeTimeout * 2 then none
      else if request.myslots.any fun j => (v.slotEpoch j).any fun epoch => epoch > request.configEpoch then none
      else some { m with lastVoteEpoch := m.currentEpoch, votedTime := Function.update m.votedTime master v.mstime }

def clusterSendFailoverAuth (v : PacketView Node) (self target : Node) (m : Voter Node) : List (Msg Node) :=
  if v.senderLinked then [⟨.failoverAuthAck,self,target,m.currentEpoch,m.configEpoch,v.myslots,false⟩] else []

/-- A header is read when its sender is a node outside handshake. -/
def PacketView.senderCurrentEpoch (v : PacketView Node) (p : Msg Node) : Nat :=
  if v.senderKnown && !v.senderInHandshake then p.currentEpoch else 0

def epochUpdated (v : PacketView Node) (p : Msg Node) (m : Voter Node) : Voter Node :=
  if v.senderCurrentEpoch p > m.currentEpoch then { m with currentEpoch := v.senderCurrentEpoch p } else m

/-- The new state, and whether the receiver gave the sender its vote. -/
def clusterProcessPacket (v : PacketView Node) (p : Msg Node) (m : Voter Node) : Voter Node × Bool :=
  let m := epochUpdated v p m
  if !v.senderKnown then (m,false)
  else match p.type with
    | .failoverAuthRequest =>
      match clusterSendFailoverAuthIfNeeded v p m with
      | some m => (m,true)
      | none => (m,false)
    | .failoverAuthAck =>
      if v.senderMaster && v.senderNumslots > 0 && v.senderCurrentEpoch p ≥ m.failoverAuthEpoch then
        ({ m with failoverAuthCount := m.failoverAuthCount + 1 },false)
      else (m,false)
    | .other => (m,false)

structure Vote (Node : Type) where
  voter : Node
  candidate : Node
  epoch : Nat
  deriving DecidableEq

structure Win (Node : Type) where
  node : Node
  epoch : Nat
  deriving DecidableEq

/-- The nodes and the packets in flight, with the votes given and the elections won so far. -/
structure Net (Node : Type) where
  node : Node → Voter Node
  packets : List (Msg Node)
  votes : List (Vote Node)
  wins : List (Win Node)

def start (saved : Node → Saved) (sent : Node → Bool) : Net Node :=
  ⟨fun n => clusterInit (saved n) (sent n),[],[],[]⟩

inductive Event (Node : Type) where
  | cron (self : Node) (v : FailoverView) (links : List Node)
  | deliver (p : Msg Node) (v : PacketView Node)
  | send (self target : Node) (configEpoch : Nat) (myslots : List Slot)

def step (net : Net Node) : Event Node → Net Node
  | .cron self v links =>
    let (m,action) := clusterHandleSlaveFailover v (net.node self)
    let net := { net with node := Function.update net.node self m }
    match action with
    | .rest => net
    | .request => { net with packets := net.packets ++ clusterRequestFailoverAuth self links v m }
    | .win => { net with wins := ⟨self,m.failoverAuthEpoch⟩ :: net.wins }
  | .deliver p v =>
    if p ∈ net.packets then
      let (m,voted) := clusterProcessPacket v p (net.node p.target)
      let net := { net with node := Function.update net.node p.target m, packets := net.packets.erase p }
      if voted then
        { net with
          packets := net.packets ++ clusterSendFailoverAuth v p.target p.sender m
          votes := ⟨p.target,p.sender,m.currentEpoch⟩ :: net.votes }
      else net
    else net
  | .send self target configEpoch myslots =>
    { net with packets := net.packets ++ [⟨.other,self,target,(net.node self).currentEpoch,configEpoch,myslots,false⟩] }

/-- The masters with slots are the same throughout, and every node counts them so. -/
def Event.Fixed (masters : Finset Node) : Event Node → Prop
  | .cron _ v _ => v.size = masters.card
  | .deliver p v => v.myselfSlave = false → v.myslots ≠ [] → p.target ∈ masters
  | .send .. => True

/-- A node that asks for votes has none counted yet. -/
def FreshCount (net : Net Node) : Event Node → Prop
  | .cron self v _ => electionOpen v (net.node self) = true → (net.node self).failoverAuthSent = false →
      (net.node self).failoverAuthCount = 0
  | _ => True

end HpuCache.Election
