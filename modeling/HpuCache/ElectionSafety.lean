import HpuCache.Election
import HpuCache.EventRun
import Mathlib.Data.List.Perm.Lattice

/-! Election safety. The acknowledgements that are in flight to a node or counted by it
are never more than the votes it was given for that epoch, as long as the counter is
clean when it asks; two majorities of the masters then share a voter, who votes once. -/
namespace HpuCache.ElectionSafety
open Election EventRun

section ways
variable {Node : Type} {v : FailoverView} {m : Voter Node}

theorem rankUpdatedKeeps (v : FailoverView) (m : Voter Node) :
    ∃ time rank, rankUpdated v m = { m with failoverAuthTime := time, failoverAuthRank := rank } := by
  rw [rankUpdated]
  split
  · exact ⟨_,_,rfl⟩
  · exact ⟨m.failoverAuthTime,m.failoverAuthRank,rfl⟩

/-- The ways through `clusterHandleSlaveFailover`. -/
inductive Handled (v : FailoverView) (m : Voter Node) : Voter Node × Action → Prop where
  | rest (time rank) : Handled v m ({ m with failoverAuthTime := time, failoverAuthRank := rank },.rest)
  | schedule : Handled v m (scheduled v m,.rest)
  | request (isOpen : electionOpen v m = true) (unsent : m.failoverAuthSent = false) (time rank) :
      Handled v m ({ m with
        failoverAuthTime := time
        failoverAuthRank := rank
        currentEpoch := m.currentEpoch + 1
        failoverAuthEpoch := m.currentEpoch + 1
        failoverAuthSent := true },.request)
  | win (sent : m.failoverAuthSent = true) (quorum : v.size / 2 + 1 ≤ m.failoverAuthCount) (time rank) :
      Handled v m ({ m with
        failoverAuthTime := time
        failoverAuthRank := rank
        configEpoch := max m.configEpoch m.failoverAuthEpoch },.win)

theorem handled (v : FailoverView) (m : Voter Node) : Handled v m (clusterHandleSlaveFailover v m) := by
  have unmoved : Handled v m (m,.rest) := .rest m.failoverAuthTime m.failoverAuthRank
  obtain ⟨time,rank,updated⟩ := rankUpdatedKeeps v m
  simp only [clusterHandleSlaveFailover]
  split
  · exact unmoved
  · next may =>
    split
    · exact unmoved
    · next fresh =>
      split
      · exact .schedule
      · next noRetry =>
        split
        · exact updated ▸ .rest time rank
        · next reached =>
          split
          · exact updated ▸ .rest time rank
          · next young =>
            split
            · next unsent =>
              simp only [updated] at unsent ⊢
              refine .request ?_ (by simpa using unsent) time rank
              simp only [Bool.not_eq_true',Bool.not_eq_false,Bool.not_eq_true] at may fresh
              simp [electionOpen,may,fresh]
              omega
            · next sent =>
              split
              · next quorum =>
                simp only [updated] at sent quorum ⊢
                exact .win (by simpa using sent) quorum time rank
              · exact updated ▸ .rest time rank

variable [DecidableEq Node] {w : PacketView Node} {p : Msg Node}

/-- The ways through `clusterProcessPacket`, with the epoch of the receiver after the header. -/
inductive Processed (w : PacketView Node) (p : Msg Node) (m : Voter Node) : Voter Node × Bool → Prop where
  | header (epoch) (later : m.currentEpoch ≤ epoch) : Processed w p m ({ m with currentEpoch := epoch },false)
  | counted (epoch) (later : m.currentEpoch ≤ epoch) (type : p.type = .failoverAuthAck)
      (old : m.failoverAuthEpoch ≤ p.currentEpoch ∨ m.failoverAuthEpoch = 0) :
      Processed w p m ({ m with currentEpoch := epoch, failoverAuthCount := m.failoverAuthCount + 1 },false)
  | voted (epoch times) (later : m.currentEpoch ≤ epoch) (type : p.type = .failoverAuthRequest)
      (master : w.myselfSlave = false ∧ w.myslots ≠ []) (asked : epoch ≤ p.currentEpoch)
      (fresh : m.lastVoteEpoch ≠ epoch) :
      Processed w p m ({ m with currentEpoch := epoch, lastVoteEpoch := epoch, votedTime := times },true)

theorem voteGiven {m' : Voter Node} (given : clusterSendFailoverAuthIfNeeded w p m = some m') :
    (w.myselfSlave = false ∧ w.myslots ≠ []) ∧ m.currentEpoch ≤ p.currentEpoch ∧ m.lastVoteEpoch ≠ m.currentEpoch ∧
      ∃ times, m' = { m with lastVoteEpoch := m.currentEpoch, votedTime := times } := by
  rw [clusterSendFailoverAuthIfNeeded] at given
  split at given <;> try contradiction
  next master =>
    split at given <;> try contradiction
    next asked =>
      split at given <;> try contradiction
      next fresh =>
        split at given <;> try contradiction
        split at given <;> try contradiction
        split at given <;> try contradiction
        split at given <;> try contradiction
        cases given
        simp only [Bool.or_eq_true,not_or,Bool.not_eq_true,List.isEmpty_iff] at master
        exact ⟨⟨master.1,by simpa using master.2⟩,by omega,fresh,_,rfl⟩

theorem processed (w : PacketView Node) (p : Msg Node) (m : Voter Node) :
    Processed w p m (clusterProcessPacket w p m) := by
  obtain ⟨epoch,later,same⟩ : ∃ epoch, m.currentEpoch ≤ epoch ∧
      epochUpdated w p m = { m with currentEpoch := epoch } := by
    rw [epochUpdated]
    split
    · next newer => exact ⟨_,newer.le,rfl⟩
    · exact ⟨m.currentEpoch,Nat.le_refl _,rfl⟩
  simp only [clusterProcessPacket,same]
  split
  · exact .header epoch later
  · split
    · next type =>
      split
      · next m' given =>
        obtain ⟨master,asked,fresh,times,rfl⟩ := voteGiven given
        exact .voted epoch times later type master asked fresh
      · exact .header epoch later
    · next type =>
      split
      · next counts =>
        simp only [Bool.and_eq_true,decide_eq_true_eq] at counts
        refine .counted epoch later type ?_
        have bound := counts.2
        rw [PacketView.senderCurrentEpoch] at bound
        split at bound
        · exact .inl bound
        · exact .inr (Nat.le_zero.mp bound)
      · exact .header epoch later
    · exact .header epoch later

end ways

variable {Node : Type} [DecidableEq Node] {masters : Finset Node} {net : Net Node}

def supporters (votes : List (Vote Node)) (n : Node) (e : Nat) : List Node :=
  (votes.filter fun v => v.candidate = n ∧ v.epoch = e).map Vote.voter

def acksTo (packets : List (Msg Node)) (n : Node) (e : Nat) : Nat :=
  packets.countP fun p => p.type = .failoverAuthAck ∧ p.target = n ∧ p.currentEpoch = e

/-- What the counter of a node is worth in an epoch. -/
def credit (m : Voter Node) (e : Nat) : Nat :=
  if m.failoverAuthSent = true ∧ m.failoverAuthEpoch = e then m.failoverAuthCount else 0

structure Tallied (masters : Finset Node) (net : Net Node) : Prop where
  once : (net.votes.map fun v => (v.voter,v.epoch)).Nodup
  cast : ∀ v ∈ net.votes, v.voter ∈ masters ∧ v.epoch ≤ (net.node v.voter).lastVoteEpoch
  voted : ∀ n, (net.node n).lastVoteEpoch ≤ (net.node n).currentEpoch
  asked : ∀ n, (net.node n).failoverAuthEpoch ≤ (net.node n).currentEpoch
  requests : ∀ p ∈ net.packets, p.type = .failoverAuthRequest →
    p.currentEpoch ≤ (net.node p.sender).failoverAuthEpoch
  acks : ∀ p ∈ net.packets, p.type = .failoverAuthAck →
    0 < p.currentEpoch ∧ p.currentEpoch ≤ (net.node p.target).failoverAuthEpoch
  counted : ∀ n e, acksTo net.packets n e + credit (net.node n) e ≤ (supporters net.votes n e).length
  won : ∀ w ∈ net.wins, masters.card / 2 + 1 ≤ (supporters net.votes w.node w.epoch).length

theorem talliedStart (saved : Node → Saved) (sent : Node → Bool) : Tallied masters (start saved sent) where
  once := .nil
  cast := by simp [start]
  voted := fun n => (saved n).ordered
  asked := fun n => Nat.zero_le _
  requests := by simp [start]
  acks := by simp [start]
  counted := by
    intro n e
    have none : credit (clusterInit (saved n) (sent n) : Voter Node) e = 0 := ite_self 0
    simp [start,acksTo,none]
  won := by simp [start]

/-- The epochs of a node only grow. -/
structure Advances (m m' : Voter Node) : Prop where
  vote : m.lastVoteEpoch ≤ m'.lastVoteEpoch
  voted : m'.lastVoteEpoch ≤ m'.currentEpoch
  auth : m.failoverAuthEpoch ≤ m'.failoverAuthEpoch
  asked : m'.failoverAuthEpoch ≤ m'.currentEpoch

/-- A change of one node that adds no packet and gains nothing in sum. -/
theorem talliedNode {n : Node} {m : Voter Node} {packets : List (Msg Node)} (tallied : Tallied masters net)
    (advances : Advances (net.node n) m) (fewer : ∀ p ∈ packets, p ∈ net.packets)
    (balance : ∀ k e, acksTo packets k e + credit (Function.update net.node n m k) e ≤
      acksTo net.packets k e + credit (net.node k) e) :
    Tallied masters { net with node := Function.update net.node n m, packets := packets } := by
  have vote : ∀ k, (net.node k).lastVoteEpoch ≤ (Function.update net.node n m k).lastVoteEpoch := by
    intro k
    rcases eq_or_ne k n with rfl | other
    · simpa using advances.vote
    · simp [other]
  have auth : ∀ k, (net.node k).failoverAuthEpoch ≤ (Function.update net.node n m k).failoverAuthEpoch := by
    intro k
    rcases eq_or_ne k n with rfl | other
    · simpa using advances.auth
    · simp [other]
  constructor
  · exact tallied.once
  · exact fun v member => ⟨(tallied.cast v member).1,Nat.le_trans (tallied.cast v member).2 (vote _)⟩
  · intro k
    rcases eq_or_ne k n with rfl | other
    · simpa using advances.voted
    · simpa [other] using tallied.voted k
  · intro k
    rcases eq_or_ne k n with rfl | other
    · simpa using advances.asked
    · simpa [other] using tallied.asked k
  · exact fun p member type => Nat.le_trans (tallied.requests p (fewer p member) type) (auth _)
  · intro p member type
    obtain ⟨positive,below⟩ := tallied.acks p (fewer p member) type
    exact ⟨positive,Nat.le_trans below (auth _)⟩
  · exact fun k e => Nat.le_trans (balance k e) (tallied.counted k e)
  · exact tallied.won

theorem talliedQuiet {n : Node} {m : Voter Node} (tallied : Tallied masters net)
    (advances : Advances (net.node n) m) (worth : ∀ e, credit m e ≤ credit (net.node n) e) :
    Tallied masters { net with node := Function.update net.node n m } := by
  refine talliedNode tallied advances (fun p member => member) fun k e => ?_
  rcases eq_or_ne k n with rfl | other
  · simpa using worth e
  · simp [other]

/-- Packets that are not acknowledgements; a request carries the epoch of its sender's election. -/
theorem talliedSent {packets : List (Msg Node)} (tallied : Tallied masters net)
    (noAck : ∀ p ∈ packets, p.type ≠ .failoverAuthAck)
    (requests : ∀ p ∈ packets, p.type = .failoverAuthRequest →
      p.currentEpoch ≤ (net.node p.sender).failoverAuthEpoch) :
    Tallied masters { net with packets := net.packets ++ packets } where
  once := tallied.once
  cast := tallied.cast
  voted := tallied.voted
  asked := tallied.asked
  requests := by
    intro p member type
    rcases List.mem_append.mp member with early | late
    · exact tallied.requests p early type
    · exact requests p late type
  acks := by
    intro p member type
    rcases List.mem_append.mp member with early | late
    · exact tallied.acks p early type
    · exact absurd type (noAck p late)
  counted := by
    intro n e
    have none : acksTo packets n e = 0 := by
      rw [acksTo,List.countP_eq_zero]
      intro p member
      simp [noAck p member]
    have before := tallied.counted n e
    simp only [acksTo,List.countP_append] at none before ⊢
    omega
  won := tallied.won

theorem supportersCons (v : Vote Node) (votes : List (Vote Node)) (n : Node) (e : Nat) :
    (supporters (v :: votes) n e).length =
      (supporters votes n e).length + if v.candidate = n ∧ v.epoch = e then 1 else 0 := by
  simp only [supporters,List.length_map,List.filter_cons]
  split
  · next here => rw [if_pos (by simpa using here),List.length_cons]
  · next apart => rw [if_neg (by simpa using apart),Nat.add_zero]

theorem supportersGrow (v : Vote Node) (votes : List (Vote Node)) (n : Node) (e : Nat) :
    (supporters votes n e).length ≤ (supporters (v :: votes) n e).length := by
  rw [supportersCons]
  omega

theorem talliedVote {n c : Node} {m : Voter Node} {acks : List (Msg Node)} (tallied : Tallied masters net)
    (advances : Advances (net.node n) m) (member : n ∈ masters) (new : (net.node n).lastVoteEpoch < m.lastVoteEpoch)
    (worth : ∀ e, credit m e = credit (net.node n) e) (candidate : m.lastVoteEpoch ≤ (net.node c).failoverAuthEpoch)
    (single : acks = [] ∨ ∃ configEpoch myslots,
      acks = [⟨.failoverAuthAck,n,c,m.lastVoteEpoch,configEpoch,myslots,false⟩]) :
    Tallied masters
      { net with
        node := Function.update net.node n m
        packets := net.packets ++ acks
        votes := ⟨n,c,m.lastVoteEpoch⟩ :: net.votes } := by
  have base := talliedQuiet tallied advances (fun e => (worth e).le)
  have known : ∀ p ∈ acks, p.type = .failoverAuthAck ∧ p.target = c ∧ p.currentEpoch = m.lastVoteEpoch := by
    intro p inside
    rcases single with rfl | ⟨configEpoch,myslots,rfl⟩
    · simp at inside
    · rw [List.mem_singleton] at inside
      subst inside
      exact ⟨rfl,rfl,rfl⟩
  have above : ∀ k, (net.node k).failoverAuthEpoch ≤ (Function.update net.node n m k).failoverAuthEpoch := by
    intro k
    rcases eq_or_ne k n with rfl | other
    · simpa using advances.auth
    · simp [other]
  constructor
  · refine List.nodup_cons.mpr ⟨?_,tallied.once⟩
    intro again
    obtain ⟨v,inside,same⟩ := List.mem_map.mp again
    obtain ⟨rfl,epoch⟩ := Prod.mk.inj same
    have old := (tallied.cast v inside).2
    simp only at epoch
    omega
  · intro v inside
    rcases List.mem_cons.mp inside with rfl | old
    · simpa using member
    · exact base.cast v old
  · exact base.voted
  · exact base.asked
  · intro p inside type
    rcases List.mem_append.mp inside with early | late
    · exact base.requests p early type
    · rw [(known p late).1] at type
      contradiction
  · intro p inside type
    rcases List.mem_append.mp inside with early | late
    · exact base.acks p early type
    · obtain ⟨_,target,epoch⟩ := known p late
      rw [target,epoch]
      exact ⟨Nat.zero_lt_of_lt new,Nat.le_trans candidate (above c)⟩
  · intro k e
    have before := base.counted k e
    have few : acksTo acks k e ≤ if c = k ∧ m.lastVoteEpoch = e then 1 else 0 := by
      rcases single with rfl | ⟨configEpoch,myslots,rfl⟩
      · simp [acksTo]
      · simp [acksTo,List.countP_cons]
    rw [supportersCons]
    simp only [acksTo,List.countP_append] at before few ⊢
    omega
  · exact fun w inside => Nat.le_trans (tallied.won w inside) (supportersGrow _ _ _ _)

theorem talliedWin {n : Node} (tallied : Tallied masters net) (sent : (net.node n).failoverAuthSent = true)
    (quorum : masters.card / 2 + 1 ≤ (net.node n).failoverAuthCount) :
    Tallied masters { net with wins := ⟨n,(net.node n).failoverAuthEpoch⟩ :: net.wins } where
  once := tallied.once
  cast := tallied.cast
  voted := tallied.voted
  asked := tallied.asked
  requests := tallied.requests
  acks := tallied.acks
  counted := tallied.counted
  won := by
    intro w inside
    rcases List.mem_cons.mp inside with rfl | old
    · have counted := tallied.counted n (net.node n).failoverAuthEpoch
      rw [credit,if_pos ⟨sent,rfl⟩] at counted
      exact Nat.le_trans quorum (Nat.le_trans (Nat.le_add_left _ _) counted)
    · exact tallied.won w old
theorem talliedCron {self : Node} {v : FailoverView} {links : List Node} (tallied : Tallied masters net)
    (size : v.size = masters.card) (clean : FreshCount net (.cron self v links)) :
    Tallied masters (step net (.cron self v links)) := by
  have way := handled v (net.node self)
  simp only [step]
  generalize clusterHandleSlaveFailover v (net.node self) = r at way ⊢
  have still : ∀ m : Voter Node, m.lastVoteEpoch = (net.node self).lastVoteEpoch →
      m.currentEpoch = (net.node self).currentEpoch → m.failoverAuthEpoch = (net.node self).failoverAuthEpoch →
      Advances (net.node self) m := by
    intro m vote current auth
    exact ⟨vote.ge,vote ▸ current ▸ tallied.voted self,auth.ge,auth ▸ current ▸ tallied.asked self⟩
  cases way with
  | rest time rank => exact talliedQuiet tallied (still _ rfl rfl rfl) fun e => Nat.le_refl _
  | schedule => exact talliedQuiet tallied (still _ rfl rfl rfl) fun e => by simp [credit,scheduled]
  | request isOpen unsent time rank =>
    have zero := clean isOpen unsent
    have asked := tallied.asked self
    have voted := tallied.voted self
    refine talliedSent (talliedQuiet tallied ⟨?_,?_,?_,?_⟩ fun e => ?_) ?_ ?_
    · exact Nat.le_refl _
    · exact Nat.le_succ_of_le voted
    · exact Nat.le_succ_of_le asked
    · exact Nat.le_refl _
    · simp [credit,zero]
    · intro p member
      obtain ⟨node,_,rfl⟩ := List.mem_map.mp member
      simp
    · intro p member _
      obtain ⟨node,_,rfl⟩ := List.mem_map.mp member
      simp
  | win sent quorum time rank =>
    have base := @talliedQuiet _ _ _ _ self { net.node self with
      failoverAuthTime := time
      failoverAuthRank := rank
      configEpoch := max (net.node self).configEpoch (net.node self).failoverAuthEpoch }
      tallied (still _ rfl rfl rfl) (fun e => Nat.le_refl _)
    have won := talliedWin (n := self) base (by simpa using sent) (by simpa [size] using quorum)
    simpa using won

theorem acksErase {p : Msg Node} (member : p ∈ net.packets) (n : Node) (e : Nat) :
    acksTo net.packets n e = acksTo (net.packets.erase p) n e +
      if p.type = .failoverAuthAck ∧ p.target = n ∧ p.currentEpoch = e then 1 else 0 := by
  rw [acksTo,(List.perm_cons_erase member).countP_eq,List.countP_cons]
  simp [acksTo]

theorem talliedDeliver {p : Msg Node} {v : PacketView Node} (tallied : Tallied masters net)
    (fixed : v.myselfSlave = false → v.myslots ≠ [] → p.target ∈ masters) :
    Tallied masters (step net (.deliver p v)) := by
  by_cases member : p ∈ net.packets
  · have way := processed v p (net.node p.target)
    simp only [step,if_pos member]
    generalize clusterProcessPacket v p (net.node p.target) = r at way ⊢
    have fewer : ∀ q ∈ net.packets.erase p, q ∈ net.packets := fun q => List.mem_of_mem_erase
    have erased := acksErase member
    have voted := tallied.voted p.target
    have asked := tallied.asked p.target
    have header : ∀ epoch, (net.node p.target).currentEpoch ≤ epoch → Tallied masters { net with
        node := Function.update net.node p.target { net.node p.target with currentEpoch := epoch }
        packets := net.packets.erase p } := by
      intro epoch later
      refine talliedNode tallied ⟨Nat.le_refl _,Nat.le_trans voted later,Nat.le_refl _,Nat.le_trans asked later⟩
        fewer fun k e => ?_
      have same : credit (Function.update net.node p.target { net.node p.target with currentEpoch := epoch } k) e =
          credit (net.node k) e := by
        rcases eq_or_ne k p.target with rfl | other
        · simp [credit]
        · simp [other]
      rw [same,erased]
      omega
    cases way with
    | header epoch later => exact header epoch later
    | counted epoch later type old =>
      obtain ⟨positive,below⟩ := tallied.acks p member type
      have current : (net.node p.target).failoverAuthEpoch = p.currentEpoch := by omega
      refine talliedNode tallied ⟨Nat.le_refl _,Nat.le_trans voted later,Nat.le_refl _,Nat.le_trans asked later⟩
        fewer fun k e => ?_
      rw [erased k e]
      rcases eq_or_ne k p.target with rfl | other
      · simp only [Function.update_self,credit,type,current,true_and]
        split_ifs <;> omega
      · simp [other]
    | voted epoch times later type master requested fresh =>
      have base := header epoch later
      have bound := tallied.requests p member type
      have below : (net.node p.target).lastVoteEpoch < epoch := by omega
      have vote := @talliedVote _ _ _ _ p.target p.sender
        { net.node p.target with currentEpoch := epoch, lastVoteEpoch := epoch, votedTime := times }
        (clusterSendFailoverAuth v p.target p.sender
          { net.node p.target with currentEpoch := epoch, lastVoteEpoch := epoch, votedTime := times })
        base
      simp only [Function.update_self,Function.update_idem] at vote
      refine vote ⟨below.le,Nat.le_refl _,Nat.le_refl _,Nat.le_trans asked later⟩ (fixed master.1 master.2) below
        (fun e => rfl) ?_ ?_
      · rcases eq_or_ne p.sender p.target with same | other
        · rw [same] at bound ⊢
          simpa using Nat.le_trans requested bound
        · simpa [other] using Nat.le_trans requested bound
      · rw [clusterSendFailoverAuth]
        split
        · exact .inr ⟨_,_,rfl⟩
        · exact .inl rfl
  · rw [step,if_neg member]
    exact tallied

theorem talliedStep {event : Event Node} (tallied : Tallied masters net) (fixed : event.Fixed masters)
    (clean : FreshCount net event) : Tallied masters (step net event) := by
  cases event with
  | cron self v links => exact talliedCron tallied fixed clean
  | deliver p v => exact talliedDeliver tallied fixed
  | send self target configEpoch myslots => exact talliedSent tallied (by simp) (by simp)

def Runs (masters : Finset Node) : Net Node → Event Node → Net Node → Prop :=
  Guarded (fun _ event => event.Fixed masters) (Takes fun net event => some (step net event))

/-- A win of a node, with the majority of the masters that voted for it in the epoch. -/
def Backed (masters : Finset Node) (net : Net Node) (w : Win Node) : Prop :=
  ∃ voters ⊆ masters, masters.card < 2 * voters.card ∧ ∀ n ∈ voters, ⟨n,w.node,w.epoch⟩ ∈ net.votes

structure Elected (masters : Finset Node) (net : Net Node) : Prop where
  backed : ∀ w ∈ net.wins, Backed masters net w
  alone : ∀ w ∈ net.wins, ∀ u ∈ net.wins, w.epoch = u.epoch → w.node = u.node

theorem supportersDistinct (tallied : Tallied masters net) (n : Node) (e : Nat) : (supporters net.votes n e).Nodup := by
  apply List.Nodup.map_on _ (tallied.once.of_map _ |>.filter _)
  intro a first b second same
  obtain ⟨inside,here⟩ := List.mem_filter.mp first
  obtain ⟨again,there⟩ := List.mem_filter.mp second
  simp only [decide_eq_true_eq] at here there
  cases a
  cases b
  simp_all

theorem talliedBacked (tallied : Tallied masters net) {w : Win Node} (won : w ∈ net.wins) : Backed masters net w := by
  refine ⟨(supporters net.votes w.node w.epoch).toFinset,?_,?_,?_⟩
  · intro n member
    obtain ⟨v,inside,rfl⟩ := List.mem_map.mp (List.mem_toFinset.mp member)
    exact (tallied.cast v (List.mem_filter.mp inside).1).1
  · rw [List.toFinset_card_of_nodup (supportersDistinct tallied _ _)]
    have quorum := tallied.won w won
    omega
  · intro n member
    obtain ⟨v,inside,rfl⟩ := List.mem_map.mp (List.mem_toFinset.mp member)
    obtain ⟨voted,here⟩ := List.mem_filter.mp inside
    simp only [decide_eq_true_eq] at here
    rw [← here.1,← here.2]
    exact voted

/-- Two majorities share a master, and a master votes once in an epoch. -/
theorem backedOnce (tallied : Tallied masters net) {w u : Win Node} (first : Backed masters net w)
    (second : Backed masters net u) (same : w.epoch = u.epoch) : w.node = u.node := by
  obtain ⟨left,leftInside,leftMost,leftVotes⟩ := first
  obtain ⟨right,rightInside,rightMost,rightVotes⟩ := second
  obtain ⟨n,both⟩ := Finset.inter_nonempty_of_card_lt_card_add_card leftInside rightInside (by omega)
  obtain ⟨inLeft,inRight⟩ := Finset.mem_inter.mp both
  have vote := List.inj_on_of_nodup_map tallied.once (leftVotes n inLeft) (rightVotes n inRight) (by simp [same])
  exact congrArg Vote.candidate vote

theorem talliedElected (tallied : Tallied masters net) : Elected masters net :=
  ⟨fun _ won => talliedBacked tallied won,
    fun _ won _ other same => backedOnce tallied (talliedBacked tallied won) (talliedBacked tallied other) same⟩

/-- Election safety, in every run where a node asks for votes with a clean counter. -/
theorem electionSafety {saved : Node → Saved} {sent : Node → Bool} {past : List (Event Node)}
    (run : Reach (Guarded FreshCount (Runs masters)) (start saved sent) past net) : Elected masters net := by
  have tallied : Tallied masters net := by
    apply @reachInvariant _ _ _ _ (Tallied masters) (talliedStart saved sent) _ _ _ run
    rintro s event t tallied ⟨clean,fixed,taken⟩
    cases Option.some.inj taken
    exact talliedStep tallied fixed clean
  exact talliedElected tallied

section lateVotes

instance (event : Event Node) : Decidable (event.Fixed masters) := by
  cases event <;> unfold Event.Fixed <;> infer_instance
instance (event : Event Node) : Decidable (FreshCount net event) := by
  cases event <;> unfold FreshCount <;> infer_instance

def slaveView (mstime : Int) : FailoverView :=
  { mstime := mstime, clusterNodeTimeout := 1000, size := 3, myselfMaster := false, slaveof := some ⟨true,0,[0]⟩
    mfEnd := false, mfCanStart := false, slaveNoFailover := false, dataAge := 0, slaveValidityFactor := 10
    replPingSlavePeriod := 10, slaveRank := 0, random := 0 }

def voterView (mstime : Int) : PacketView Nat :=
  { mstime := mstime, clusterNodeTimeout := 1000, myselfSlave := false, myslots := [1], slotEpoch := fun _ => none
    senderKnown := true, senderInHandshake := false, senderLinked := true, senderMaster := false, senderNumslots := 0
    senderSlaveof := some (2,true) }

def candidateView (mstime : Int) : PacketView Nat :=
  { voterView mstime with
    myselfSlave := true, myslots := [], senderMaster := true, senderNumslots := 1, senderSlaveof := none }

def request (slave target epoch : Nat) : Msg Nat := ⟨.failoverAuthRequest,slave,target,epoch,0,[0],false⟩
def ack (voter slave epoch : Nat) : Msg Nat := ⟨.failoverAuthAck,voter,slave,epoch,0,[1],false⟩

def founded : Net Nat := start (fun _ => ⟨0,0,0,Nat.le_refl 0⟩) fun _ => false

def wonElection : List (Event Nat) := [
  .cron 4 (slaveView 13000) [],.cron 4 (slaveView 14000) [0,1,2,3],
  .deliver (request 4 0 1) (voterView 14010),.deliver (request 4 1 1) (voterView 14010),
  .deliver (ack 0 4 1) (candidateView 14100),.deliver (ack 1 4 1) (candidateView 14100),
  .cron 4 (slaveView 14200) []]

theorem electionSafetyShown : ∃ past net, Reach (Guarded FreshCount (Runs {0,1,2})) founded past net ∧
    net.wins = [⟨4,1⟩] ∧ Elected {0,1,2} net := by
  have played : (replay (fun net event => if decide (FreshCount net event ∧ event.Fixed {0,1,2}) then
      some (step net event) else none) founded wonElection).any (fun net => net.wins = [⟨4,1⟩]) = true := by
    decide +kernel
  obtain ⟨net,run,won⟩ := @replayShown _ _ _ _ _
    (fun net event => FreshCount net event ∧ event.Fixed {0,1,2}) _ _ (fun _ _ => of_decide_eq_true) played
  have clean : Reach (Guarded FreshCount (Runs {0,1,2})) founded wonElection.reverse net :=
    reachMono (fun taken => ⟨taken.1.1,taken.1.2,taken.2⟩) run
  exact ⟨_,net,clean,of_decide_eq_true won,electionSafety clean⟩

/-- Node 3 is voted for in epoch 1, and schedules a second election before the two votes arrive. Node 4
wins epoch 2 meanwhile; node 3 asks in epoch 2 as well, with the two late votes already counted. -/
def lateVotes : List (Event Nat) := [
  .cron 3 (slaveView 10000) [],.cron 3 (slaveView 11000) [0,1,2,4],
  .deliver (request 3 0 1) (voterView 11010),.deliver (request 3 1 1) (voterView 11010),
  .deliver (request 3 4 1) (candidateView 11010),
  .cron 4 (slaveView 13000) [],.cron 4 (slaveView 14000) [0,1,2,3],
  .deliver (request 4 0 2) (voterView 14010),.deliver (request 4 1 2) (voterView 14010),
  .deliver (ack 0 4 2) (candidateView 14100),.deliver (ack 1 4 2) (candidateView 14100),
  .cron 4 (slaveView 14200) [],
  .cron 3 (slaveView 15000) [],
  .deliver (ack 0 3 1) (candidateView 15100),.deliver (ack 1 3 1) (candidateView 15100),
  .cron 3 (slaveView 15600) [0,1,2,4],.cron 3 (slaveView 15700) []]

theorem lateVotesCounted : ∃ past net, Reach (Runs {0,1,2}) founded past net ∧ net.wins = [⟨3,2⟩,⟨4,2⟩] ∧
    ¬ Elected {0,1,2} net := by
  have played : (replay (fun net event => if decide (event.Fixed {0,1,2}) then some (step net event) else none)
      founded lateVotes).any (fun net => net.wins = [⟨3,2⟩,⟨4,2⟩]) = true := by
    decide +kernel
  obtain ⟨net,run,won⟩ := @replayShown _ _ _ _ _
    (fun _ (event : Event Nat) => event.Fixed {0,1,2}) _ _ (fun _ _ => of_decide_eq_true) played
  have wins : net.wins = [⟨3,2⟩,⟨4,2⟩] := of_decide_eq_true won
  refine ⟨_,net,run,wins,fun elected => ?_⟩
  have same := elected.alone ⟨3,2⟩ (by simp [wins]) ⟨4,2⟩ (by simp [wins]) rfl
  simp at same

end lateVotes
end HpuCache.ElectionSafety
