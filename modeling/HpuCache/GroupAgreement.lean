import HpuCache.EventRun
import HpuCache.FifoLinks
import HpuCache.MemberStep

/-! The members of one cluster and the hot-group packets in flight between them.
What a receiver will believe after its queue is what the sender last did; when
the queues are empty all members hold the same groups. -/
namespace HpuCache.GroupAgreement
open ByteText KeySlot KeyedDict CommandCache ServerState GroupCommands MemberStep EventRun FifoLinks

structure Net where
  node : NodeId → ClusterState
  links : Links NodeId HotGroupMsg

inductive Event where
  | act (node : NodeId) (event : MemberEvent)
  | deliver (source target : NodeId) (msg : HotGroupMsg)

def reached (nodes : List NodeId) (x : NodeId) (sends : List HotGroupMsg) (y : NodeId) : List HotGroupMsg :=
  if y ∈ nodes ∧ y ≠ x then sends else []

def Net.acted (nodes : List NodeId) (net : Net) (x : NodeId) (r : MemberResult) : Net :=
  ⟨Function.update net.node x r.cluster,post net.links x (reached nodes x r.sends)⟩

def Net.delivered (net : Net) (x y : NodeId) (rest : List HotGroupMsg) (r : MemberResult) : Net :=
  ⟨Function.update net.node y r.cluster,withdraw net.links x y rest⟩

/-- `none` is an event that cannot happen, an error is a process that fails in it. -/
def attempt (nodes : List NodeId) (net : Net) : Event → Option (Except Fault Net)
  | .act x event =>
    if x ∈ nodes ∧ event.isPacket = false then
      some ((memberStep nodes (net.node x) event).map (net.acted nodes x))
    else none
  | .deliver x y msg =>
    match net.links x y with
    | [] => none
    | head :: rest =>
      if head = msg then
        some ((memberStep nodes (net.node y) (.packet msg)).map (net.delivered x y rest))
      else none

def step (nodes : List NodeId) (net : Net) (event : Event) : Option Net :=
  match attempt nodes net event with
  | some (.ok next) => some next
  | _ => none

structure Fresh (nodes : List NodeId) (net : Net) : Prop where
  named : ∀ x ∈ nodes, (net.node x).myself = x
  zeroed : ∀ x ∈ nodes, ∀ s, (net.node x).slotStatus s = .zeroed
  quiet : Quiet net.links

def inGroup (net : Net) (y : NodeId) (s : Slot) (x : NodeId) : Bool :=
  ((net.node y).slotStatus s).relatedIns.has x

/-- Whether the last HOTGROUP command of this node for this slot was ADD. -/
def lastAdd (x : NodeId) (s : Slot) : List Event → Bool
  | [] => false
  | .act y (.hotgroup _ word t) :: past =>
    if t = s ∧ x = y then
      match groupWord word with
      | .add => true
      | .del => false
      | .unknown => lastAdd x s past
    else lastAdd x s past
  | _ :: past => lastAdd x s past

/-- The membership of the sender after the queued packets of one slot. -/
def settled (s : Slot) : List HotGroupMsg → Bool → Bool
  | [], before => before
  | msg :: rest, before =>
    settled s rest (if msg.slot.toNat = s.val then
      if msg.status = 1 then true else if msg.status = 2 then false else before
      else before)

structure Agrees (nodes : List NodeId) (past : List Event) (net : Net) : Prop where
  named : ∀ x ∈ nodes, (net.node x).myself = x
  wire : ∀ x y, ∀ msg ∈ net.links x y, PacketSound nodes msg ∧ msg.nodename = x ∧ y ∈ nodes ∧ y ≠ x
  view : ∀ x, ∀ y ∈ nodes, ∀ s, settled s (net.links x y) (inGroup net y s x) = lastAdd x s past

theorem settledAppend (s : Slot) (xs ys : List HotGroupMsg) (before : Bool) :
    settled s (xs ++ ys) before = settled s ys (settled s xs before) := by
  induction xs generalizing before with
  | nil => rfl
  | cons msg rest ih => exact ih _

section packet
variable (myself : NodeId) (slot : Slot) (status : UInt16)

@[simp] theorem packetSlot : (clusterBroadcastOwnAsHotInstance myself slot status).slot.toNat = slot.val := by
  have below := slot.isLt
  simp only [clusterBroadcastOwnAsHotInstance,UInt16.toNat_ofNat']
  exact Nat.mod_eq_of_lt (by omega)
@[simp] theorem packetStatus : (clusterBroadcastOwnAsHotInstance myself slot status).status = status := rfl
@[simp] theorem packetNode : (clusterBroadcastOwnAsHotInstance myself slot status).nodename = myself := rfl

end packet

/-- The packets of an event do at the receiver what the event did at the sender. -/
theorem settledPackets {event : MemberEvent} (own : event.isPacket = false) (x : NodeId)
    (s : Slot) (before : Bool) :
    settled s (packetsOf x event) before = memberAfter x s x event before := by
  cases event with
  | packet msg => contradiction
  | hotgroup order word slot =>
    cases w : groupWord word <;> simp [packetsOf,memberAfter,w,settled,Fin.val_inj]
  | _ => rfl

theorem packetsSound {nodes : List NodeId} {x : NodeId} (known : x ∈ nodes) (event : MemberEvent) :
    ∀ msg ∈ packetsOf x event, PacketSound nodes msg ∧ msg.nodename = x := by
  intro msg member
  cases event with
  | hotgroup order word slot =>
    have below := slot.isLt
    cases w : groupWord word <;> simp only [packetsOf,w,List.mem_singleton,List.not_mem_nil] at member
    · subst member
      exact ⟨⟨known,by rwa [packetSlot],.inl rfl⟩,rfl⟩
    · subst member
      exact ⟨⟨known,by rwa [packetSlot],.inr rfl⟩,rfl⟩
  | _ => simp [packetsOf] at member

section net
variable (nodes : List NodeId) (net : Net) (x : NodeId) (rest : List HotGroupMsg) (r : MemberResult)

theorem actedSame : (net.acted nodes x r).node x = r.cluster := Function.update_self ..
theorem actedOther {x y : NodeId} (other : y ≠ x) : (net.acted nodes x r).node y = net.node y :=
  Function.update_of_ne other ..
theorem actedLinks : (net.acted nodes x r).links = post net.links x (reached nodes x r.sends) := rfl
theorem deliveredSame (y : NodeId) : (net.delivered x y rest r).node y = r.cluster :=
  Function.update_self ..
theorem deliveredOther {y z : NodeId} (other : z ≠ y) : (net.delivered x y rest r).node z = net.node z :=
  Function.update_of_ne other ..
theorem deliveredLinks (y : NodeId) : (net.delivered x y rest r).links = withdraw net.links x y rest := rfl

end net

theorem lastAddDeliver (x : NodeId) (s : Slot) (a b : NodeId) (msg : HotGroupMsg) (past : List Event) :
    lastAdd x s (.deliver a b msg :: past) = lastAdd x s past := rfl

theorem lastAddAct (x y : NodeId) (s : Slot) (event : MemberEvent) (past : List Event)
    (own : event.isPacket = false) :
    lastAdd x s (.act y event :: past) = memberAfter y s x event (lastAdd x s past) := by
  cases event with
  | packet msg => contradiction
  | hotgroup order word slot => rfl
  | _ => rfl

theorem memberAfterOther {myself x : NodeId} {event : MemberEvent} (s : Slot) (before : Bool)
    (own : event.isPacket = false) (other : x ≠ myself) :
    memberAfter myself s x event before = before := by
  cases event with
  | packet msg => contradiction
  | hotgroup order word slot => exact if_neg (fun h => other h.2)
  | _ => rfl

/-- What a step is: an event of one node that its packets follow, or the delivery of the oldest packet. -/
theorem stepCases {nodes : List NodeId} {net next : Net} {event : Event}
    (taken : Takes (step nodes) net event next) :
    (∃ x e r, event = .act x e ∧ x ∈ nodes ∧ e.isPacket = false ∧
      memberStep nodes (net.node x) e = .ok r ∧
      next = net.acted nodes x r) ∨
    (∃ x y msg rest r, event = .deliver x y msg ∧ net.links x y = msg :: rest ∧
      memberStep nodes (net.node y) (.packet msg) = .ok r ∧
      next = net.delivered x y rest r) := by
  have done : attempt nodes net event = some (.ok next) := by
    simp only [Takes,step] at taken
    split at taken <;> try contradiction
    cases Option.some.inj taken
    assumption
  cases event with
  | act x e =>
    simp only [attempt] at done
    split at done <;> try contradiction
    rename_i allowed
    cases ok : memberStep nodes (net.node x) e with
    | error fault => simp [ok,Except.map] at done
    | ok r =>
      simp only [ok,Except.map,Option.some.injEq,Except.ok.injEq] at done
      exact .inl ⟨x,e,r,rfl,allowed.1,allowed.2,ok,done.symm⟩
  | deliver x y msg =>
    simp only [attempt] at done
    split at done <;> try contradiction
    rename_i head rest queue
    split at done <;> try contradiction
    rename_i same
    subst same
    cases ok : memberStep nodes (net.node y) (.packet head) with
    | error fault => simp [ok,Except.map] at done
    | ok r =>
      simp only [ok,Except.map,Option.some.injEq,Except.ok.injEq] at done
      exact .inr ⟨x,y,head,rest,r,rfl,queue,ok,done.symm⟩

theorem freshAgrees {nodes : List NodeId} {net : Net} (fresh : Fresh nodes net) :
    Agrees nodes [] net := by
  refine ⟨fresh.named,fun x y msg member => ?_,fun x y known s => ?_⟩
  · rw [fresh.quiet x y] at member
    contradiction
  · rw [fresh.quiet x y,inGroup,fresh.zeroed y known s]
    rfl

theorem actAgrees {nodes : List NodeId} {past : List Event} {net : Net} (agrees : Agrees nodes past net)
    {x : NodeId} {event : MemberEvent} {r : MemberResult} (known : x ∈ nodes)
    (own : event.isPacket = false) (ok : memberStep nodes (net.node x) event = .ok r) :
    Agrees nodes (.act x event :: past) (net.acted nodes x r) := by
  have spec := memberStepSpec ok
  have name := agrees.named x known
  refine ⟨?_,?_,?_⟩
  · intro y member
    by_cases same : y = x
    · subst same
      rw [actedSame,spec.tables.myself,name]
    · rw [actedOther nodes net r same,agrees.named y member]
  · intro a b msg member
    rcases memPost.mp member with queued | ⟨rfl,sent⟩
    · exact agrees.wire a b msg queued
    · simp only [reached] at sent
      split at sent
      · rename_i target
        rw [spec.sends,name] at sent
        obtain ⟨sound,sender⟩ := packetsSound known event msg sent
        exact ⟨sound,sender,target⟩
      · contradiction
  · intro a b member s
    have before := agrees.view a b member s
    rw [lastAddAct a x s event past own,← before,actedLinks]
    by_cases actor : b = x
    · subst actor
      -- The acting node updates its own set and sends itself nothing.
      rw [inGroup,actedSame,spec.member s a,name]
      by_cases sender : a = b
      · subst sender
        have silent : net.links a a = [] := List.eq_nil_iff_forall_not_mem.mpr
          (fun msg queued => (agrees.wire a a msg queued).2.2.2 rfl)
        simp [reached,silent,settled,inGroup]
      · rw [postOther _ _ _ sender,memberAfterOther s _ own sender,memberAfterOther s _ own sender]
        rfl
    · rw [inGroup,actedOther nodes net r actor]
      by_cases sender : a = x
      · subst sender
        rw [postSame,settledAppend,reached,if_pos ⟨member,actor⟩,spec.sends,name,settledPackets own]
        rfl
      · rw [postOther _ _ _ sender,memberAfterOther s _ own sender]
        rfl

theorem deliverAgrees {nodes : List NodeId} {past : List Event} {net : Net}
    (agrees : Agrees nodes past net) {x y : NodeId} {msg : HotGroupMsg} {rest : List HotGroupMsg}
    {r : MemberResult} (queue : net.links x y = msg :: rest)
    (ok : memberStep nodes (net.node y) (.packet msg) = .ok r) :
    Agrees nodes (.deliver x y msg :: past) (net.delivered x y rest r) := by
  have spec := memberStepSpec ok
  obtain ⟨_,sender,known,_⟩ := agrees.wire x y msg (by rw [queue]; exact List.mem_cons_self)
  refine ⟨?_,fun a b other member => agrees.wire a b other (memWithdraw queue member),?_⟩
  · intro b member
    by_cases same : b = y
    · subst same
      rw [deliveredSame,spec.tables.myself,agrees.named b known]
    · rw [deliveredOther net x rest r same,agrees.named b member]
  · intro a b member s
    have before := agrees.view a b member s
    rw [lastAddDeliver,← before,deliveredLinks]
    by_cases target : b = y
    · subst target
      rw [inGroup,deliveredSame,spec.member s a,memberAfter,sender]
      by_cases source : a = x
      · subst source
        rw [withdrawSame,queue,settled]
        simp [inGroup]
      · rw [withdrawOther _ _ (fun h => source h.1),if_neg (fun h => source h.2)]
        rfl
    · rw [inGroup,deliveredOther net x rest r target,withdrawOther _ _ (fun h => target h.2)]
      rfl

theorem runAgrees {nodes : List NodeId} {start net : Net} {past : List Event} (fresh : Fresh nodes start)
    (run : Reach (Takes (step nodes)) start past net) : Agrees nodes past net := by
  refine reachHistory (freshAgrees fresh) ?_ run
  intro past net event next _ agrees taken
  rcases stepCases taken with ⟨x,e,r,rfl,known,own,ok,rfl⟩ | ⟨x,y,msg,rest,r,rfl,queue,ok,rfl⟩
  · exact actAgrees agrees known own ok
  · exact deliverAgrees agrees queue ok

theorem quietOnNodes {nodes : List NodeId} {past : List Event} {net : Net} (agrees : Agrees nodes past net)
    (empty : ∀ x ∈ nodes, ∀ y ∈ nodes, net.links x y = []) : Quiet net.links := by
  intro x y
  cases queue : net.links x y with
  | nil => rfl
  | cons msg rest =>
    obtain ⟨sound,sender,target,_⟩ := agrees.wire x y msg (by rw [queue]; exact List.mem_cons_self)
    rw [← queue,empty x (sender ▸ sound.known) y target]

/-- The commands and packets that change the membership. -/
def Event.isGroup : Event → Bool
  | .act _ (.hotgroup _ _ _) => true
  | .deliver _ _ _ => true
  | _ => false

theorem groupEventOk {nodes : List NodeId} {past : List Event} {net : Net} (agrees : Agrees nodes past net)
    {event : Event} (group : event.isGroup = true) (fault : Fault) :
    attempt nodes net event ≠ some (.error fault) := by
  intro failed
  cases event with
  | act x e =>
    cases e with
    | hotgroup order word slot =>
      obtain ⟨r,ok,_⟩ := hotgroupSpec nodes order word slot (net.node x)
      simp only [attempt,ok] at failed
      split at failed <;> simp [Except.map] at failed
    | _ => contradiction
  | deliver x y msg =>
    simp only [attempt] at failed
    split at failed <;> try contradiction
    rename_i head rest queue
    split at failed <;> try contradiction
    rename_i same
    subst same
    obtain ⟨sound,_⟩ := agrees.wire x y head (by rw [queue]; exact List.mem_cons_self)
    obtain ⟨r,ok,_⟩ := packetSpec sound (net.node y)
    simp [ok,Except.map] at failed

/-- When all packets have been delivered every node holds the same groups, made of the
nodes whose last HOTGROUP command was ADD; and no assertion fails on the way. -/
theorem membershipAgreement {nodes : List NodeId} {start net : Net} {past : List Event}
    (fresh : Fresh nodes start) (run : Reach (Takes (step nodes)) start past net) :
    (Quiet net.links → ∀ s, ∀ y ∈ nodes,
      (∀ x, x ∈ ((net.node y).slotStatus s).relatedIns.entries ↔ lastAdd x s past = true) ∧
      ∀ z ∈ nodes, ∀ x, x ∈ ((net.node y).slotStatus s).relatedIns.entries ↔
        x ∈ ((net.node z).slotStatus s).relatedIns.entries) ∧
    ∀ event, event.isGroup = true → ∀ fault, attempt nodes net event ≠ some (.error fault) := by
  have agrees := runAgrees fresh run
  refine ⟨fun quiet s => ?_,fun event group fault => groupEventOk agrees group fault⟩
  have last : ∀ y ∈ nodes, ∀ x, x ∈ ((net.node y).slotStatus s).relatedIns.entries ↔
      lastAdd x s past = true := by
    intro y known x
    have view := agrees.view x y known s
    rw [quiet x y,settled] at view
    rw [← view,inGroup,Dict.hasIff]
    simp
  exact fun y known => ⟨last y known,fun z other x => (last y known x).trans (last z other x).symm⟩

def initialNet (owner : NodeId) : Net := ⟨ClusterState.initial owner,FifoLinks.empty⟩

theorem initialFresh (nodes : List NodeId) (owner : NodeId) : Fresh nodes (initialNet owner) :=
  ⟨fun _ _ => rfl,fun _ _ _ => rfl,fun _ _ => rfl⟩

def pair : List NodeId := [1,2]

def joinAndLeave : List Event :=
  [.act 1 (.hotgroup .asStored textAdd 7),.act 2 (.hotgroup .asStored textAdd 7),
    .act 1 (.hotgroup .asStored textDel 7),.deliver 1 2 ⟨7,1,1⟩,.deliver 2 1 ⟨7,1,2⟩,
    .deliver 1 2 ⟨7,2,1⟩]

theorem membershipAgreementShown : ∃ net, replay (step pair) (initialNet 1) joinAndLeave = some net ∧
    (2 ∈ ((net.node 1).slotStatus 7).relatedIns.entries ∧
      2 ∈ ((net.node 2).slotStatus 7).relatedIns.entries) ∧
    1 ∉ ((net.node 2).slotStatus 7).relatedIns.entries := by
  obtain ⟨net,done⟩ : ∃ net, replay (step pair) (initialNet 1) joinAndLeave = some net :=
    Option.isSome_iff_exists.mp (by decide)
  have run := replayReach done
  have empty : ∀ x ∈ pair, ∀ y ∈ pair, net.links x y = [] := by
    have all : (replay (step pair) (initialNet 1) joinAndLeave).all
        (fun net => decide (∀ x ∈ pair, ∀ y ∈ pair, net.links x y = [])) = true := by decide
    simpa [done] using all
  have quiet := quietOnNodes (runAgrees (initialFresh pair 1) run) empty
  have agreed := (membershipAgreement (initialFresh pair 1) run).1 quiet 7
  refine ⟨net,done,⟨((agreed 1 (by decide)).1 2).mpr (by decide),((agreed 2 (by decide)).1 2).mpr (by decide)⟩,?_⟩
  exact fun member => absurd (((agreed 2 (by decide)).1 1).mp member) (by decide)

end HpuCache.GroupAgreement
