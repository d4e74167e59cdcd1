import HpuCache.BulkTransfer
import HpuCache.EventRun
import HpuCache.NodeFrames

/-! In every run of a node the owners, the bitmaps and the counters agree, the owners are in
the table, and the assertion on a deleted slot holds. -/
namespace HpuCache.SlotInvariant
open BitArray EventRun FaultRun KeyedDict KeySlot NodeTable SlotTable SlotUpdate SlotCommands NodeCommands NodePackets NodeFrames
  BulkTransfer

def Steps (s : ClusterState) (e : Event) (t : ClusterState) : Prop := step s e = .ok t

/-- What the table says of every node in it. -/
structure OwnerTable (s : ClusterState) : Prop where
  nodes : ∀ e ∈ s.nodes.entries, ∃ n, s.heap e.node = some n ∧
    (∀ j, s.slots j = some e.node ↔ bitmapTestBit n.slots j = true) ∧ n.numslots = (bitsOf n.slots).card
  single : ∀ e ∈ s.nodes.entries, ∀ f ∈ s.nodes.entries, ∀ n m j, s.heap e.node = some n → s.heap f.node = some m →
    bitmapTestBit n.slots j = true → bitmapTestBit m.slots j = true → e.node = f.node
  owners : ∀ j p, s.slots j = some p → ∃ e ∈ s.nodes.entries, e.node = p

theorem soundInvariant {s : ClusterState} (table : Agreed s) (listed : Listed s) : OwnerTable s := by
  refine ⟨fun e inside => ?_,fun e _ f _ n m j left right first second => ?_,fun j p owner => ?_⟩
  · obtain ⟨n,found,_⟩ := listed.live e inside
    exact ⟨n,found,table.agree found,table.counted found⟩
  · have one := (table.agree left j).mpr first
    have two := (table.agree right j).mpr second
    rw [one] at two
    exact Option.some.inj two
  · obtain ⟨n,found⟩ := Option.isSome_iff_exists.mp (table.owned owner)
    exact ⟨_,listed.listed found,rfl⟩

/-- A member of a hot group that the table knows under the name it is kept by. -/
def Live (s : ClusterState) (e : TableEntry) : Prop := ∃ n, s.heap e.node = some n ∧ n.name = e.name

/-- Only members that the table knows were added, and nothing else was changed. -/
def Joined (s t : ClusterState) : Prop :=
  ∃ related, t = { s with relatedIns := related } ∧
    ∀ slot, ∀ e ∈ (related slot).entries, e ∈ (s.relatedIns slot).entries ∨ Live s e

section
variable {s t : ClusterState}

theorem joinedRefl (s : ClusterState) : Joined s s := ⟨s.relatedIns,rfl,fun _ _ => .inl⟩

theorem joinedAt {slot : Slot} {related : Dict TableEntry.name}
    (members : ∀ e ∈ related.entries, e ∈ (s.relatedIns slot).entries ∨ Live s e) :
      Joined s (setRelated s slot related) := by
  refine ⟨_,rfl,fun other e inside => ?_⟩
  by_cases here : other = slot
  · subst here
    rw [Function.update_self] at inside
    exact members e inside
  · rw [Function.update_of_ne here] at inside
    exact .inl inside

theorem addMemberEnds (s : ClusterState) (p : NodePtr) (slot : Slot) :
    Ends Admitted (Joined s) (clusterHotGroupAddNode s p slot) := by
  refine (derefEnds s p).bind fun n found => ?_
  split
  · exact joinedRefl s
  · split
    · rename_i related added
      simp only [Dict.add] at added
      split at added
      · contradiction
      · obtain rfl := Option.some.inj added
        refine joinedAt fun e inside => ?_
        rcases Dict.memReplace.mp inside with rfl | ⟨member,_⟩
        · exact .inr ⟨n,found,rfl⟩
        · exact .inl member
    · simp [Admitted]

theorem delMemberEnds (s : ClusterState) (p : NodePtr) (slot : Slot) :
    Ends Admitted (Joined s) (clusterHotGroupDelNode s p slot) := by
  refine (derefEnds s p).bind fun n _ => ?_
  split
  · split
    · rename_i related removed
      simp only [Dict.remove] at removed
      split at removed
      · obtain rfl := Option.some.inj removed
        exact joinedAt fun e inside => .inl (Dict.memDelete.mp inside).1
      · contradiction
    · simp [Admitted]
  · exact joinedRefl s

theorem hotGroupEnds (table : Agreed s) (listed : Listed s) {e : Event} (hot : HotGroup e) :
    Ends Admitted (fun t => ∃ u, Moves (fun _ => False) s u ∧ Joined u t) (step s e) := by
  have same : Moves (fun _ => False) s s := .refl table listed
  cases e with
  | hotgroup del slot =>
    cases slot with
    | none => simp [step,hotgroup,bind,Except.bind,Admitted]
    | some slot =>
      have changed : Ends Admitted (Joined s)
          (if del then clusterHotGroupDelNode s s.myself slot else clusterHotGroupAddNode s s.myself slot) := by
        split
        · exact delMemberEnds s s.myself slot
        · exact addMemberEnds s s.myself slot
      have replied : Ends Admitted (fun r : ClusterState × Reply => Joined s r.1) (hotgroup s del (some slot)) :=
        changed.bind fun t joined => joined
      exact replied.bind fun r joined => ⟨s,same,joined⟩
  | hotGroupPacket hdr nodename slot status =>
    have epochs := @epochsEnds (fun _ => False) s table listed hdr
    refine epochs.bind fun r ends => ?_
    simp only [hotGroupPacket]
    split
    · simp [Admitted]
    · split
      · split
        · split
          · exact (addMemberEnds r.1 _ _).imp fun t joined => ⟨r.1,ends.1,joined⟩
          · exact (delMemberEnds r.1 _ _).imp fun t joined => ⟨r.1,ends.1,joined⟩
        · simp [Admitted]
      · exact ⟨r.1,ends.1,joinedRefl r.1⟩
  | _ => exact hot.elim

theorem joinedSound (table : Agreed s) (listed : Listed s) (joined : Joined s t) : Agreed t ∧ Listed t := by
  obtain ⟨related,rfl,_⟩ := joined
  exact ⟨⟨table.agree,table.counted,table.owned⟩,⟨listed.live,listed.listed,listed.me⟩⟩

theorem stepSound (table : Agreed s) (listed : Listed s) (e : Event) :
    Ends Admitted (fun t => Agreed t ∧ Listed t) (step s e) := by
  by_cases hot : HotGroup e
  · refine (hotGroupEnds table listed hot).imp ?_
    rintro t ⟨u,moves,joined⟩
    exact joinedSound moves.table moves.listed joined
  · exact (stepKeeps table listed hot).imp fun t moves => ⟨moves.table,moves.listed⟩

end

theorem initSound (p : NodePtr) (nodename : NodeName) :
    Agreed (clusterInit p nodename) ∧ Listed (clusterInit p nodename) := by
  have only {q : NodePtr} {n : ClusterNode} (found : (clusterInit p nodename).heap q = some n) :
      q = p ∧ n = createClusterNode nodename { NodeFlags.none with myself := true, master := true } := by
    by_cases same : q = p
    · subst same
      simp only [clusterInit,Function.update_self,Option.some.injEq] at found
      exact ⟨rfl,found.symm⟩
    · simp [clusterInit,Function.update_of_ne same] at found
  have here : (clusterInit p nodename).heap p =
      some (createClusterNode nodename { NodeFlags.none with myself := true, master := true }) := by simp [clusterInit]
  refine ⟨agreedEmpty (fun _ => rfl) fun found => ?_,⟨fun e inside => ?_,fun {q n} found => ?_,⟨_,here,rfl⟩⟩⟩
  · obtain ⟨_,rfl⟩ := only found
    exact ⟨rfl,rfl⟩
  · obtain rfl := List.mem_singleton.mp inside
    exact ⟨_,here,rfl⟩
  · obtain ⟨rfl,rfl⟩ := only found
    exact List.mem_singleton.mpr rfl

theorem runSound {p : NodePtr} {nodename : NodeName} {past : List Event} {s : ClusterState}
    (run : Reach Steps (clusterInit p nodename) past s) : Agreed s ∧ Listed s :=
  @reachInvariant _ _ Steps _ (fun s => Agreed s ∧ Listed s) (initSound p nodename)
    (fun {_ e _} sound taken => (stepSound sound.1 sound.2 e).value taken) _ _ run

/-- The slot table is right in every state that a node reaches, and no step fails the assertion. -/
theorem slotTableInvariant {p : NodePtr} {nodename : NodeName} {past : List Event} {s : ClusterState}
    (run : Reach Steps (clusterInit p nodename) past s) :
    OwnerTable s ∧ ∀ e, step s e ≠ .error .delSlotAssert := by
  obtain ⟨table,listed⟩ := runSound run
  exact ⟨soundInvariant table listed,fun e failed => (stepSound table listed e).fault failed rfl⟩

theorem freeAlone {s : ClusterState} {p : NodePtr} {n : ClusterNode} (found : s.heap p = some n)
    (slaves : n.slaves = [])
    (slave : n.flags.slave = false) (has : s.nodes.has n.name = true) : freeClusterNode s p =
      .ok { s with nodes := s.nodes.delete n.name, heap := Function.update s.heap p none } := by
  simp only [freeClusterNode,ClusterState.deref,found,bind,Except.bind,slaves,List.foldlM_nil,pure,Except.pure,slave,
    Bool.false_eq_true,if_false,Dict.remove,has,if_true]

/-- One turn of the loop that frees the slots of a node. -/
def freeStep (p : NodePtr) (s : ClusterState) (slot : Slot) : Run ClusterState := do
  let s := closeMarkers s p slot
  if s.slots slot = some p then
    let (s,_) ← clusterDelSlot s slot
    .ok s
  else .ok s

theorem delNodeSweeps (s : ClusterState) (p : NodePtr) :
    clusterDelNode s p = sweep (freeStep p) s >>= fun s => freeClusterNode s p := rfl

theorem delNodeTotal {s : ClusterState} {p : NodePtr} {n : ClusterNode} (table : Agreed s) (listed : Listed s)
    (found : s.heap p = some n) (slaves : n.slaves = []) (slave : n.flags.slave = false) :
    ∃ t, clusterDelNode s p = .ok t := by
  have start : Agreed s ∧ SameNodes s s ∧ s.nodes = s.nodes := ⟨table,.refl s,rfl⟩
  have ends := @sweepEnds _ _ (fun _ => False) _ (freeStep p)
    (fun _ t => Agreed t ∧ SameNodes s t ∧ t.nodes = s.nodes) (fun done t j _ kept => ?_) s start
  · obtain ⟨t,swept,_,nodes,entries⟩ := endsTotal.mp ends
    obtain ⟨m,there,alike⟩ := nodes.node found
    have name : m.name = n.name := ofUnbound alike ClusterNode.name
    have noSlaves : m.slaves = [] := (ofUnbound alike ClusterNode.slaves).trans slaves
    have noSlave : m.flags.slave = false := (ofUnbound alike fun n => n.flags.slave).trans slave
    have has : t.nodes.has m.name = true := by
      rw [name,entries]
      exact (Dict.hasIff _ _).mpr ⟨_,listed.listed found,rfl⟩
    refine ⟨{ t with nodes := t.nodes.delete m.name, heap := Function.update t.heap p none },?_⟩
    rw [delNodeSweeps,swept]
    exact freeAlone there noSlaves noSlave has
  · obtain ⟨kept,nodes,entries⟩ := kept
    have closed : Agreed (closeMarkers t p j) := ⟨kept.agree,kept.counted,kept.owned⟩
    rw [freeStep]
    split
    · refine (delSlotEnds closed j).bind fun r removed => ?_
      refine ⟨removed.1.table,nodes.trans removed.1.nodes,?_⟩
      rw [removed.1.rest]
      exact entries
    · exact ⟨closed,nodes,entries⟩

def plainHeader (sender : NodeName) : Header := ⟨sender,0,0⟩

def firstPong : ConfigPacket := ⟨.pong,true,false,false,none,emptyBitmap,[],some 1,2,[120],[],0,0⟩

def last : Slot := 16383

/-- The node takes the first slot and the last one, and meets another node. -/
def ownedRun : List Event :=
  [.config (plainHeader [98]) firstPong,.meet 1 [120] [] 7000 17000,.setslot (some last) (.node [97]),
    .setslot (some 0) (.node [97])]

theorem ownedReach : ∃ s, Reach Steps (clusterInit 0 [97]) ownedRun s ∧ s.slots 0 = some 0 ∧ s.slots last = some 0 ∧
    clusterLookupNode s [97] = some 0 ∧ clusterLookupNode s [98] = some 1 ∧ s.myself = 0 ∧
    (∃ me, s.heap 0 = some me ∧ me.flags.slave = false) ∧
    ∃ n, s.heap 1 = some n ∧ n.slaves = [] ∧ n.flags.slave = false := by
  have first : Reach Steps (clusterInit 0 [97]) [.setslot (some 0) (.node [97])] _ := .next .start rfl
  have second := first.next (show Steps _ (.setslot (some last) (.node [97])) _ from rfl)
  have third := second.next (show Steps _ (.meet 1 [120] [] 7000 17000) _ from rfl)
  have fourth := third.next (show Steps _ (.config (plainHeader [98]) firstPong) _ from rfl)
  exact ⟨_,fourth,rfl,rfl,rfl,rfl,rfl,⟨_,rfl,rfl⟩,_,rfl,rfl,rfl⟩

theorem turnedNode {s t : ClusterState} {p b : NodePtr} {drops done : Slot → Prop} {n : ClusterNode}
    (turned : Turned s b drops done t) (found : s.heap p = some n) :
    ∃ m, t.heap p = some m ∧ m.slaves = n.slaves ∧ m.flags.slave = n.flags.slave := by
  have mapped := turned.nodes p
  rw [found,Option.map_some] at mapped
  obtain ⟨m,there,alike⟩ := Option.map_eq_some_iff.mp mapped
  have members : (timeless m).slaves = (timeless n).slaves := by rw [alike]
  have role : (timeless m).flags.slave = (timeless n).flags.slave := by rw [alike]
  exact ⟨m,there,members,role⟩

/-- The other node gets all slots at once, and is forgotten. -/
theorem slotTableInvariantShown : ∃ t s, Reach Steps (clusterInit 0 [97]) (.setallslot .node [97] [98] :: ownedRun) t ∧
    t.slots 0 = some 1 ∧ t.slots last = some 1 ∧ Steps t (.forget [98]) s ∧ s.heap 1 = none ∧
    OwnerTable s ∧ ∀ e, step s e ≠ .error .delSlotAssert := by
  obtain ⟨s,run,first,final,source,target,myself,⟨me,here,master⟩,n,found,slaves,slave⟩ := ownedReach
  obtain ⟨t,moved,_,turned⟩ := endsTotal.mp (@bulkEnds s 0 1 (fun _ => False) (runSound run).1
    (by rw [here]; rfl) (by rw [found]; rfl))
  have bulk : Steps s (.setallslot .node [97] [98]) t := by
    simp only [Steps,step,setallslot,ClusterState.deref,myself,here,bind,Except.bind,master,Bool.false_eq_true,if_false,
      source,target,setallslotTo,moved,pure,Except.pure]
  have longer := run.next bulk
  obtain ⟨table,listed⟩ := runSound longer
  obtain ⟨mine,me',_,still⟩ := turnedNode turned here
  obtain ⟨other,there,slaves',role⟩ := turnedNode turned found
  obtain ⟨u,deleted⟩ := delNodeTotal table listed there (slaves'.trans slaves) (role.trans slave)
  have self : t.myself = 0 := turned.myself.trans myself
  have known : clusterLookupNode t [98] = some 1 := by
    rw [clusterLookupNode,turned.entries]
    exact target
  obtain ⟨_,gone⟩ := (@delNodeEnds (fun p => p = 1) t 1 table listed rfl (by rw [self]; decide)).value deleted
  have forgotten : Steps t (.forget [98]) u := by
    simp only [Steps,step,forget,known,ClusterState.deref,self,me',bind,Except.bind,still,master,Bool.false_eq_true,
      false_and,if_false,deleted,pure,Except.pure,Nat.one_ne_zero]
  exact ⟨t,u,longer,turned.moved 0 (.inl first),turned.moved last (.inl final),forgotten,gone,
    slotTableInvariant (longer.next forgotten)⟩

end HpuCache.SlotInvariant
