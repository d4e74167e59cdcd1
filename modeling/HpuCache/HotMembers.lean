import HpuCache.SlotInvariant

/-! The members of hot groups are a second index onto the nodes. It stays right as long as no
step deletes or renames a member: the deletions and the new names do not look at it. -/
namespace HpuCache.HotMembers
open BitArray EventRun FaultRun KeyedDict KeySlot NodeTable SlotTable SlotCommands NodeCommands NodePackets NodeFrames SlotInvariant

/-- Every member of a hot group is a record that the table has under the name of the entry. -/
def HotMembersLive (s : ClusterState) : Prop :=
  ∀ slot, ∀ e ∈ (s.relatedIns slot).entries, Live s e ∧ clusterLookupNode s e.name = some e.node

/-- The step leaves the members of the hot groups in the table under their names. -/
def Spares (s : ClusterState) (e : Event) : Prop :=
  ∀ slot, ∀ member ∈ (s.relatedIns slot).entries, ¬ Touched s e member.node

def Members (s : ClusterState) : Prop := ∀ slot, ∀ e ∈ (s.relatedIns slot).entries, Live s e

section
variable {s t : ClusterState}

theorem lookupOfLive (listed : Listed s) {e : TableEntry} (live : Live s e) :
    clusterLookupNode s e.name = some e.node := by
  obtain ⟨n,found,name⟩ := live
  have entry : s.nodes.find e.name = some ⟨n.name,e.node⟩ := Dict.findIff.mpr ⟨listed.listed found,name⟩
  rw [clusterLookupNode,entry]
  rfl

theorem movesMembers {touched : NodePtr → Prop} (moves : Moves touched s t) (members : Members s)
    (spared : ∀ slot, ∀ member ∈ (s.relatedIns slot).entries, ¬ touched member.node) : Members t := by
  intro slot e inside
  rw [moves.related] at inside
  obtain ⟨n,found,name⟩ := members slot e inside
  obtain ⟨m,there,same⟩ := moves.names (spared slot e inside) found
  exact ⟨m,there,same.trans name⟩

theorem joinedMembers (joined : Joined s t) (members : Members s) : Members t := by
  obtain ⟨related,rfl,joins⟩ := joined
  intro slot e inside
  rcases joins slot e inside with old | new
  · exact members slot e old
  · exact new

theorem stepMembers (table : Agreed s) (listed : Listed s) (members : Members s) {e : Event} (spared : Spares s e)
    (taken : step s e = .ok t) : Members t := by
  by_cases hot : HotGroup e
  · obtain ⟨u,moves,joined⟩ := (hotGroupEnds table listed hot).value taken
    exact joinedMembers joined (movesMembers moves members fun _ _ _ => id)
  · exact movesMembers ((stepKeeps table listed hot).value taken) members spared

end

/-- In a run that never deletes or renames a member, all members of hot groups are live nodes. -/
theorem hotMembersLive {p : NodePtr} {nodename : NodeName} {past : List Event} {s : ClusterState}
    (run : Reach (Guarded Spares Steps) (clusterInit p nodename) past s) : HotMembersLive s := by
  have sound := @reachInvariant _ _ (Guarded Spares Steps) _ (fun s => Agreed s ∧ Listed s ∧ Members s)
    ⟨(initSound p nodename).1,(initSound p nodename).2,fun _ _ inside => by simp [clusterInit,Dict.empty] at inside⟩
    (fun {s e t} before taken => by
      obtain ⟨table,listed,members⟩ := before
      have after := (stepSound table listed e).value taken.2
      exact ⟨after.1,after.2,stepMembers table listed members taken.1 taken.2⟩) _ _ run
  exact fun slot e inside => ⟨sound.2.2 slot e inside,lookupOfLive sound.2.1 (sound.2.2 slot e inside)⟩

def joinedRun : List Event :=
  [.hotGroupPacket (plainHeader [98]) [98] 0 1,.config (plainHeader [98]) firstPong,.meet 1 [120] [] 7000 17000,
    .hotgroup false (some 0)]

theorem joinedReach : ∃ s, Reach Steps (clusterInit 0 [97]) joinedRun s ∧
    (s.relatedIns 0).entries = [⟨[97],0⟩,⟨[98],1⟩] ∧ clusterLookupNode s [98] = some 1 ∧
    (∃ n, s.heap 1 = some n ∧ n.slaves = [] ∧ n.flags.slave = false) ∧
    s.myself = 0 ∧ ∃ me, s.heap 0 = some me ∧ me.flags.slave = false := by
  have first : Reach Steps (clusterInit 0 [97]) [.hotgroup false (some 0)] _ := .next .start rfl
  have second := first.next (show Steps _ (.meet 1 [120] [] 7000 17000) _ from rfl)
  have third := second.next (show Steps _ (.config (plainHeader [98]) firstPong) _ from rfl)
  have fourth := third.next (show Steps _ (.hotGroupPacket (plainHeader [98]) [98] 0 1) _ from rfl)
  exact ⟨_,fourth,rfl,rfl,⟨_,rfl,rfl,rfl⟩,rfl,_,rfl,rfl⟩

/-- The node is forgotten, and the hot group keeps it. -/
theorem forgottenMember : ∃ s, Reach Steps (clusterInit 0 [97]) (.forget [98] :: joinedRun) s ∧ ¬ HotMembersLive s := by
  obtain ⟨s,run,members,known,⟨n,found,slaves,slave⟩,myself,me,here,master⟩ := joinedReach
  obtain ⟨table,listed⟩ := runSound run
  obtain ⟨t,deleted⟩ := delNodeTotal table listed found slaves slave
  have other : (1 : NodePtr) ≠ s.myself := by rw [myself]; exact Nat.one_ne_zero
  obtain ⟨moves,gone⟩ := (@delNodeEnds (fun p => p = 1) s 1 table listed rfl other).value deleted
  have taken : Steps s (.forget [98]) t := by
    simp only [Steps,step,forget,known,ClusterState.deref,myself,here,bind,Except.bind,master,Bool.false_eq_true,
      false_and,if_false,deleted,pure,Except.pure,Nat.one_ne_zero]
  refine ⟨t,run.next taken,fun live => ?_⟩
  obtain ⟨⟨m,there,_⟩,_⟩ := live 0 ⟨[98],1⟩ (by rw [moves.related,members]; simp)
  rw [gone] at there
  contradiction

/-- Slots other than slot 0 have no hot group. -/
def Sole (related : Slot → Dict TableEntry.name) : Prop := ∀ slot, slot ≠ 0 → (related slot).entries = []

theorem soleUpdate {related : Slot → Dict TableEntry.name} (sole : Sole related) (group : Dict TableEntry.name) :
    Sole (Function.update related 0 group) := by
  intro slot other
  rw [Function.update_of_ne other]
  exact sole slot other

theorem soleMember {related : Slot → Dict TableEntry.name} (sole : Sole related) {slot : Slot} {member : TableEntry}
    (inside : member ∈ (related slot).entries) : member ∈ (related 0).entries := by
  by_cases here : slot = 0
  · rwa [here] at inside
  · rw [sole slot here] at inside
    contradiction

def secondPong : ConfigPacket := { firstPong with link := some 2, freshName := [121] }

def thirdRun : List Event := .config (plainHeader [99]) secondPong :: .meet 2 [121] [] 7001 17001 :: joinedRun

/-- This node and another one are in the hot group of slot 0, and a third node is in none. -/
theorem thirdReach : ∃ s, Reach (Guarded Spares Steps) (clusterInit 0 [97]) thirdRun s ∧ Sole s.relatedIns ∧
    (s.relatedIns 0).entries = [⟨[97],0⟩,⟨[98],1⟩] ∧ clusterLookupNode s [99] = some 2 ∧
    (∃ n, s.heap 2 = some n ∧ n.slaves = [] ∧ n.flags.slave = false) ∧
    s.myself = 0 ∧ ∃ me, s.heap 0 = some me ∧ me.flags.slave = false := by
  have none : Sole (clusterInit 0 [97]).relatedIns := fun _ _ => rfl
  have first : Reach (Guarded Spares Steps) (clusterInit 0 [97]) [.hotgroup false (some 0)] _ :=
    .next .start ⟨fun _ _ _ => id,rfl⟩
  have second := first.next (show Guarded Spares Steps _ (.meet 1 [120] [] 7000 17000) _ from ⟨fun _ _ _ => id,rfl⟩)
  have third := second.next (show Guarded Spares Steps _ (.config (plainHeader [98]) firstPong) _ from
    ⟨fun slot member inside touched => by
      obtain rfl : member = ⟨[97],0⟩ := List.mem_singleton.mp (soleMember (soleUpdate none _) inside)
      exact absurd touched.1 (by decide),rfl⟩)
  have fourth := third.next (show Guarded Spares Steps _ (.hotGroupPacket (plainHeader [98]) [98] 0 1) _ from
    ⟨fun _ _ _ => id,rfl⟩)
  have fifth := fourth.next (show Guarded Spares Steps _ (.meet 2 [121] [] 7001 17001) _ from ⟨fun _ _ _ => id,rfl⟩)
  have sixth := fifth.next (show Guarded Spares Steps _ (.config (plainHeader [99]) secondPong) _ from
    ⟨fun slot member inside touched => by
      have two : member ∈ [(⟨[97],0⟩ : TableEntry),⟨[98],1⟩] := soleMember (soleUpdate (soleUpdate none _) _) inside
      rw [List.mem_pair] at two
      rcases two with rfl | rfl <;> exact absurd touched.1 (by decide),rfl⟩)
  exact ⟨_,sixth,soleUpdate (soleUpdate none _) _,rfl,rfl,⟨_,rfl,rfl,rfl⟩,rfl,_,rfl,rfl⟩

/-- The third node is forgotten. -/
theorem hotMembersLiveShown : ∃ s, Reach (Guarded Spares Steps) (clusterInit 0 [97]) (.forget [99] :: thirdRun) s ∧
    (s.relatedIns 0).entries = [⟨[97],0⟩,⟨[98],1⟩] ∧ HotMembersLive s := by
  obtain ⟨s,run,sole,members,known,⟨n,found,slaves,slave⟩,myself,me,here,master⟩ := thirdReach
  obtain ⟨table,listed⟩ := runSound (reachMono And.right run)
  obtain ⟨t,deleted⟩ := delNodeTotal table listed found slaves slave
  have other : (2 : NodePtr) ≠ s.myself := by rw [myself]; decide
  obtain ⟨moves,gone⟩ := (@delNodeEnds (fun p => p = 2) s 2 table listed rfl other).value deleted
  have taken : Steps s (.forget [99]) t := by
    simp only [Steps,step,forget,known,ClusterState.deref,myself,here,bind,Except.bind,master,Bool.false_eq_true,
      false_and,if_false,deleted,pure,Except.pure,show (2 : NodePtr) ≠ 0 by decide]
  have spared : Spares s (.forget [99]) := by
    intro slot member inside touched
    have two := soleMember sole inside
    rw [members,List.mem_pair] at two
    rw [Touched,known] at touched
    rcases two with rfl | rfl <;> exact absurd (Option.some.inj touched.1) (by decide)
  have longer := run.next ⟨spared,taken⟩
  exact ⟨t,longer,by rw [moves.related,members],hotMembersLive longer⟩

end HpuCache.HotMembers
