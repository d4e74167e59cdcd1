import HpuCache.SlotInvariant

/-! A hot-group packet from its length check to its effect on `slot_status`. The name and the
slot come from the wire and are used before they are checked, or without any check. -/
namespace HpuCache.PacketCheck
open FaultRun KeyedDict KeySlot NodeTable SlotTable NodeCommands NodePackets SlotInvariant

structure Receiver where
  cluster : ClusterState
  isCopied : Slot → Bool

structure HotGroupMsg where
  status : UInt16
  slot : UInt16
  nodename : NodeName

structure Packet where
  totlen : Nat
  ver : Nat
  hdr : Header
  msg : HotGroupMsg

/-- What the compiler made of `clusterMsg`, and how much the link has received. -/
structure Layout where
  headerLen : Nat
  hotGroupLen : Nat
  rcvbufLen : Nat

def lengthCheck (l : Layout) (p : Packet) : Bool :=
  16 ≤ p.totlen && p.totlen ≤ l.rcvbufLen && p.ver == 1 && p.totlen == l.headerLen + l.hotGroupLen

def slotOf (slot : UInt16) : Run Slot :=
  if inside : slot.toNat < 16384 then .ok ⟨slot.toNat,inside⟩ else .error .slotRange

def hotGroupHandler (r : Receiver) (msg : HotGroupMsg) : Run Receiver :=
  match clusterLookupNode r.cluster msg.nodename with
  | none => .error .nullPointer
  | some n =>
    if msg.status = 1 then do
      let slot ← slotOf msg.slot
      let s ← clusterHotGroupAddNode r.cluster n slot
      .ok ⟨s,Function.update r.isCopied slot true⟩
    else if msg.status = 2 then do
      let slot ← slotOf msg.slot
      let s ← clusterHotGroupDelNode r.cluster n slot
      .ok { r with cluster := s }
    else .ok r

def clusterProcessPacket (l : Layout) (r : Receiver) (p : Packet) : Run Receiver :=
  if lengthCheck l p then do
    let (s,_) ← updateEpochs r.cluster p.hdr
    hotGroupHandler { r with cluster := s } p.msg
  else .ok r

/-- The packet names a node of the table and a slot. -/
def Named (s : ClusterState) (msg : HotGroupMsg) : Prop :=
  (clusterLookupNode s msg.nodename).isSome ∧ msg.slot.toNat < 16384

/-- No null pointer, no freed node and no index outside `slot_status`; and a packet that names
no node or no slot leaves `slot_status` as it was. -/
def Validated (l : Layout) (r : Receiver) (p : Packet) : Prop :=
  ∃ t, clusterProcessPacket l r p = .ok t ∧
    (¬ Named r.cluster p.msg → t.isCopied = r.isCopied ∧ t.cluster.relatedIns = r.cluster.relatedIns)

section
variable {s : ClusterState} {n : NodePtr}

/-- The epochs of the sender leave the table and the members alone. -/
structure Raised (s t : ClusterState) : Prop where
  nodes : t.nodes = s.nodes
  related : t.relatedIns = s.relatedIns
  live : ∀ p, (t.heap p).isSome = (s.heap p).isSome

theorem epochsRaised (listed : Listed s) (hdr : Header) :
    ∃ t epoch, updateEpochs s hdr = .ok (t,epoch) ∧ Raised s t := by
  cases known : clusterLookupNode s hdr.sender with
  | none => exact ⟨s,0,by simp [updateEpochs,known],rfl,rfl,fun _ => rfl⟩
  | some sender =>
    obtain ⟨k,found,_⟩ := listed.lookup known
    simp only [updateEpochs,known,ClusterState.deref,found,bind,Except.bind]
    cases k.flags.handshake with
    | true => exact ⟨s,0,rfl,rfl,rfl,fun _ => rfl⟩
    | false =>
      refine ⟨_,_,rfl,?_⟩
      split
      · refine ⟨rfl,rfl,fun p => ?_⟩
        by_cases here : p = sender
        · subst here
          simp [found]
        · simp [Function.update_of_ne here]
      · exact ⟨rfl,rfl,fun _ => rfl⟩

theorem addNodeTotal (live : (s.heap n).isSome) (slot : Slot) : ∃ t, clusterHotGroupAddNode s n slot = .ok t := by
  obtain ⟨k,found⟩ := Option.isSome_iff_exists.mp live
  simp only [clusterHotGroupAddNode,ClusterState.deref,found,bind,Except.bind]
  cases member : (s.relatedIns slot).has k.name with
  | true => exact ⟨s,rfl⟩
  | false => exact ⟨setRelated s slot _,by simp [Dict.add,member]; rfl⟩

theorem delNodeTotal (live : (s.heap n).isSome) (slot : Slot) : ∃ t, clusterHotGroupDelNode s n slot = .ok t := by
  obtain ⟨k,found⟩ := Option.isSome_iff_exists.mp live
  simp only [clusterHotGroupDelNode,ClusterState.deref,found,bind,Except.bind]
  cases member : (s.relatedIns slot).has k.name with
  | true => exact ⟨setRelated s slot _,by simp [Dict.remove,member]; rfl⟩
  | false => exact ⟨s,rfl⟩

theorem slotInside {slot : UInt16} (inside : slot.toNat < 16384) :
    slotOf slot = .ok ⟨slot.toNat,inside⟩ := dif_pos inside

theorem slotOutside {slot : UInt16} (outside : ¬ slot.toNat < 16384) :
    slotOf slot = .error .slotRange := dif_neg outside

end

section
variable {r : Receiver} {msg : HotGroupMsg}

theorem handlerUnknown (unknown : clusterLookupNode r.cluster msg.nodename = none) :
    hotGroupHandler r msg = .error .nullPointer := by
  rw [hotGroupHandler,unknown]

theorem handlerInside {n : NodePtr} (known : clusterLookupNode r.cluster msg.nodename = some n)
    (live : (r.cluster.heap n).isSome) (inside : msg.slot.toNat < 16384) : ∃ t, hotGroupHandler r msg = .ok t := by
  simp only [hotGroupHandler,known,slotInside inside,bind,Except.bind]
  split
  · obtain ⟨t,added⟩ := addNodeTotal live ⟨msg.slot.toNat,inside⟩
    exact ⟨_,by rw [added]⟩
  · split
    · obtain ⟨t,deleted⟩ := delNodeTotal live ⟨msg.slot.toNat,inside⟩
      exact ⟨_,by rw [deleted]⟩
    · exact ⟨r,rfl⟩

theorem handlerOutside {n : NodePtr} (known : clusterLookupNode r.cluster msg.nodename = some n)
    (outside : ¬ msg.slot.toNat < 16384) :
    hotGroupHandler r msg = if msg.status = 1 ∨ msg.status = 2 then .error .slotRange else .ok r := by
  simp only [hotGroupHandler,known,slotOutside outside,bind,Except.bind]
  by_cases add : msg.status = 1
  · simp [add]
  · by_cases del : msg.status = 2 <;> simp [add,del]

end

/-- Exactly the packets about known nodes, with a slot or with no known status, are handled safely. -/
theorem packetValidated {l : Layout} {r : Receiver} {p : Packet} (listed : Listed r.cluster)
    (passes : lengthCheck l p = true) :
    Validated l r p ↔ (clusterLookupNode r.cluster p.msg.nodename).isSome ∧
      (p.msg.slot.toNat < 16384 ∨ (p.msg.status ≠ 1 ∧ p.msg.status ≠ 2)) := by
  obtain ⟨s,epoch,updated,raised⟩ := epochsRaised listed p.hdr
  have lookup : clusterLookupNode s p.msg.nodename = clusterLookupNode r.cluster p.msg.nodename := by
    rw [clusterLookupNode,raised.nodes]
    rfl
  have processed : clusterProcessPacket l r p = hotGroupHandler { r with cluster := s } p.msg := by
    simp only [clusterProcessPacket,passes,if_true,updated,bind,Except.bind]
  unfold Validated Named
  rw [processed]
  cases known : clusterLookupNode r.cluster p.msg.nodename with
  | none =>
    rw [handlerUnknown (r := { r with cluster := s }) (lookup.trans known)]
    simp
  | some n =>
    have there : clusterLookupNode s p.msg.nodename = some n := lookup.trans known
    by_cases inside : p.msg.slot.toNat < 16384
    · obtain ⟨k,found,_⟩ := listed.lookup known
      have live : (s.heap n).isSome := by rw [raised.live,found]; rfl
      obtain ⟨t,handled⟩ := handlerInside (r := { r with cluster := s }) there live inside
      refine iff_of_true ⟨t,handled,?_⟩ ⟨rfl,.inl inside⟩
      exact fun unnamed => absurd ⟨rfl,inside⟩ unnamed
    · rw [handlerOutside (r := { r with cluster := s }) there inside]
      by_cases access : p.msg.status = 1 ∨ p.msg.status = 2
      · simp only [if_pos access,inside,false_or,Option.isSome_some,true_and]
        refine iff_of_false (by simp) fun none => ?_
        exact access.elim none.1 none.2
      · rw [if_neg access]
        refine iff_of_true ⟨_,rfl,fun _ => ⟨rfl,raised.related⟩⟩ ⟨rfl,.inr (not_or.mp access)⟩

def smallLayout : Layout := ⟨2272,44,2316⟩

def soloReceiver : Receiver := ⟨clusterInit 0 [97],fun _ => false⟩

def joinPacket (nodename : NodeName) (slot : UInt16) : Packet := ⟨2316,1,⟨[98],0,0⟩,⟨1,slot,nodename⟩⟩

/-- The node itself is named, with slot 0. -/
theorem packetValidatedShown : Validated smallLayout soloReceiver (joinPacket [97] 0) :=
  (packetValidated (initSound 0 [97]).2 (by decide)).mpr ⟨rfl,.inl (by decide)⟩

/-- An unknown node, and a slot number past the last slot. -/
theorem packetUnchecked : clusterProcessPacket smallLayout soloReceiver (joinPacket [98] 0) = .error .nullPointer ∧
    clusterProcessPacket smallLayout soloReceiver (joinPacket [97] 20000) = .error .slotRange ∧
    ¬ ∀ p, lengthCheck smallLayout p = true → Validated smallLayout soloReceiver p := by
  have crash : clusterProcessPacket smallLayout soloReceiver (joinPacket [98] 0) = .error .nullPointer := rfl
  refine ⟨crash,rfl,fun all => ?_⟩
  obtain ⟨t,ok,_⟩ := all (joinPacket [98] 0) (by decide)
  rw [crash] at ok
  contradiction

end HpuCache.PacketCheck
