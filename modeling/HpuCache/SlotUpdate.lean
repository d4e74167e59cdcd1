import HpuCache.RankedClaims
import HpuCache.SlotTable

/-! A node announces its slots under an epoch: every slot that nobody owns, or whose owner
has a lower epoch, moves to it. A slot that is being imported stays where it is. -/
namespace HpuCache.SlotUpdate
open BitArray FaultRun KeySlot NodeTable SlotTable RankedClaims

structure UpdateScan where
  state : ClusterState
  newmaster : Option NodePtr
  -- `dirty_slots_count` is the length.
  dirtySlots : List Slot
  senderSlots : Nat
  migratedOurSlots : Nat

def outranked (s : ClusterState) (j : Slot) (senderConfigEpoch : Nat) : Run Bool :=
  match s.slots j with
  | none => .ok true
  | some p => do
    let owner ← s.deref p
    .ok (decide (owner.configEpoch < senderConfigEpoch))

def updateSlot (sender : NodePtr) (senderConfigEpoch : Nat) (slots : Bitmap 16384) (curmaster : Option NodePtr)
    (scan : UpdateScan) (j : Slot) : Run UpdateScan :=
  if bitmapTestBit slots j then
    let scan := { scan with senderSlots := scan.senderSlots + 1 }
    let s := scan.state
    if s.slots j = some sender then .ok scan
    else if (s.importingSlotsFrom j).isSome then .ok scan
    else do
      if ← outranked s j senderConfigEpoch then
        let dirty := s.slots j = some s.myself ∧ s.slotsKeysCount j ≠ 0 ∧ sender ≠ s.myself
        let ours := s.slots j = curmaster
        let s ← reassignSlot s sender j
        .ok { scan with
          state := s
          newmaster := if ours then some sender else scan.newmaster
          dirtySlots := if dirty then scan.dirtySlots ++ [j] else scan.dirtySlots
          migratedOurSlots := if ours then scan.migratedOurSlots + 1 else scan.migratedOurSlots }
      else .ok scan
  else .ok scan

/-- `delKeysInSlot`, as far as the number of keys goes. -/
def delKeysInSlots (s : ClusterState) (dirtySlots : List Slot) : ClusterState :=
  s.setKeys (dirtySlots.foldl (fun count j => Function.update count j 0) s.slotsKeysCount)

/-- What follows the scan. The reconfiguration as a replica is commented out in the source. -/
def settleUpdate (curmaster : Option NodePtr) (scan : UpdateScan) : Run ClusterState :=
  let s := scan.state
  if s.noRedirection then .ok s
  else do
    let left ← match scan.newmaster, curmaster with
      | none, _ => .ok false
      | some _, none => .error .nullPointer
      | some _, some p => do
        let master ← s.deref p
        .ok (decide (master.numslots = 0 ∧
          (s.allowReplicaMigration = true ∨ scan.senderSlots = scan.migratedOurSlots)))
    if left then .ok s else .ok (delKeysInSlots s scan.dirtySlots)

def clusterUpdateSlotsConfigWith (s : ClusterState) (sender : NodePtr) (senderConfigEpoch : Nat)
    (slots : Bitmap 16384) : Run ClusterState := do
  let me ← s.deref s.myself
  let curmaster := if me.flags.master then some s.myself else me.slaveof
  if sender = s.myself then .ok s else
    let scan ← sweep (updateSlot sender senderConfigEpoch slots curmaster) ⟨s,none,[],0,0⟩
    settleUpdate curmaster scan

def epochOf (s : ClusterState) (p : NodePtr) : Nat := (s.heap p).elim 0 ClusterNode.configEpoch

theorem sameEpoch {s t : ClusterState} (same : SameNodes s t) (p : NodePtr) : epochOf t p = epochOf s p := by
  cases found : s.heap p with
  | none =>
    have gone := same p
    rw [found,Option.map_none,Option.map_eq_none_iff] at gone
    rw [epochOf,epochOf,found,gone]
  | some n =>
    obtain ⟨m,there,alike⟩ := same.node found
    rw [epochOf,epochOf,found,there]
    have ranks := congrArg ClusterNode.configEpoch alike
    exact ranks

structure Rebinds (s : ClusterState) (sender : NodePtr) (epoch : Nat) (slots : Bitmap 16384) (j : Slot) : Prop where
  claimed : bitmapTestBit slots j = true
  foreign : s.slots j ≠ some sender
  closed : s.importingSlotsFrom j = none
  older : ∀ p, s.slots j = some p → epochOf s p < epoch

theorem rebindsSame {s t : ClusterState} {owner sender epoch slots j} (assigned : Assigned s t owner)
    (same : t.slots j = s.slots j) : Rebinds t sender epoch slots j ↔ Rebinds s sender epoch slots j := by
  have importing : t.importingSlotsFrom = s.importingSlotsFrom := by rw [assigned.rest]
  constructor
  · intro rebinds
    exact ⟨rebinds.claimed,same ▸ rebinds.foreign,importing ▸ rebinds.closed,
      fun p owner => (sameEpoch assigned.nodes p) ▸ rebinds.older p (same.trans owner)⟩
  · intro rebinds
    exact ⟨rebinds.claimed,same ▸ rebinds.foreign,importing ▸ rebinds.closed,
      fun p owner => (sameEpoch assigned.nodes p).symm ▸ rebinds.older p (same.symm.trans owner)⟩

section
variable {faults : Fault → Prop} {sender : NodePtr} {epoch : Nat} {slots : Bitmap 16384} {curmaster : Option NodePtr}

theorem outrankedEnds {s : ClusterState} (table : Agreed s) (j : Slot) (epoch : Nat) :
    Ends faults (fun older => older = true ↔ ∀ p, s.slots j = some p → epochOf s p < epoch) (outranked s j epoch) := by
  cases owner : s.slots j with
  | none => simp [outranked,owner]
  | some p =>
    obtain ⟨n,found⟩ := Option.isSome_iff_exists.mp (table.owned owner)
    simp [outranked,owner,ClusterState.deref,found,bind,Except.bind,epochOf]

theorem turnEnds {scan : UpdateScan} (table : Agreed scan.state) (live : (scan.state.heap sender).isSome) (j : Slot) :
    Ends faults (fun r =>
      (Rebinds scan.state sender epoch slots j →
        Assigned scan.state r.state (Function.update scan.state.slots j (some sender)) ∧
        r.newmaster = if scan.state.slots j = curmaster then some sender else scan.newmaster) ∧
      (¬ Rebinds scan.state sender epoch slots j → r.state = scan.state ∧ r.newmaster = scan.newmaster))
      (updateSlot sender epoch slots curmaster scan j) := by
  rw [updateSlot]
  by_cases claimed : bitmapTestBit slots j = true
  · simp only [if_pos claimed]
    by_cases own : scan.state.slots j = some sender
    · rw [if_pos own]
      exact ⟨fun rebinds => absurd own rebinds.foreign,fun _ => ⟨rfl,rfl⟩⟩
    rw [if_neg own]
    by_cases importing : (scan.state.importingSlotsFrom j).isSome
    · rw [if_pos importing]
      refine ⟨fun rebinds => ?_,fun _ => ⟨rfl,rfl⟩⟩
      rw [rebinds.closed] at importing
      contradiction
    rw [if_neg importing]
    refine (outrankedEnds table j epoch).bind fun older known => ?_
    cases older with
    | true =>
      refine (reassignEnds table live j).bind fun t assigned => ?_
      have rebinds : Rebinds scan.state sender epoch slots j := ⟨claimed,own,by simpa using importing,known.mp rfl⟩
      exact ⟨fun _ => ⟨assigned,rfl⟩,fun stays => absurd rebinds stays⟩
    | false => exact ⟨fun rebinds => absurd (known.mpr rebinds.older) (by simp),fun _ => ⟨rfl,rfl⟩⟩
  · rw [if_neg claimed]
    exact ⟨fun rebinds => absurd rebinds.claimed claimed,fun _ => ⟨rfl,rfl⟩⟩

structure Scanned (s : ClusterState) (sender : NodePtr) (epoch : Nat) (slots : Bitmap 16384)
    (curmaster : Option NodePtr) (done : Slot → Prop) (scan : UpdateScan) : Prop where
  assigned : Assigned s scan.state scan.state.slots
  moved : ∀ k, done k → Rebinds s sender epoch slots k → scan.state.slots k = some sender
  kept : ∀ k, (done k → ¬ Rebinds s sender epoch slots k) → scan.state.slots k = s.slots k
  lost : scan.newmaster.isSome ↔ ∃ k, done k ∧ Rebinds s sender epoch slots k ∧ s.slots k = curmaster

theorem scanTurn {s : ClusterState} {scan : UpdateScan} {done : Slot → Prop} {j : Slot}
    (scanned : Scanned s sender epoch slots curmaster done scan) (live : (s.heap sender).isSome) (undone : ¬ done j) :
    Ends faults (Scanned s sender epoch slots curmaster fun k => done k ∨ k = j)
      (updateSlot sender epoch slots curmaster scan j) := by
  have here : scan.state.slots j = s.slots j := scanned.kept j fun early => absurd early undone
  have same : Rebinds scan.state sender epoch slots j ↔ Rebinds s sender epoch slots j :=
      rebindsSame scanned.assigned here
  refine (turnEnds scanned.assigned.table ((scanned.assigned.nodes.live sender).trans live) j).imp fun r turn => ?_
  by_cases rebinds : Rebinds s sender epoch slots j
  · obtain ⟨assigned,newmaster⟩ := turn.1 (same.mpr rebinds)
    have whole := scanned.assigned.trans assigned
    have owners := assigned.slots
    refine ⟨by rw [owners]; exact whole,?_,?_,?_⟩
    · rintro k (early | rfl) moves
      · by_cases at_ : k = j
        · rw [owners,at_,Function.update_self]
        · rw [owners,Function.update_of_ne at_]
          exact scanned.moved k early moves
      · rw [owners,Function.update_self]
    · intro k stays
      have other : k ≠ j := fun at_ => stays (.inr at_) (at_ ▸ rebinds)
      rw [owners,Function.update_of_ne other]
      exact scanned.kept k fun early => stays (.inl early)
    · rw [newmaster,here]
      split
      · rename_i ours
        exact iff_of_true rfl ⟨j,.inr rfl,rebinds,ours⟩
      · rename_i others
        rw [scanned.lost]
        constructor
        · rintro ⟨k,early,moves,ours⟩
          exact ⟨k,.inl early,moves,ours⟩
        · rintro ⟨k,early | rfl,moves,ours⟩
          · exact ⟨k,early,moves,ours⟩
          · exact absurd ours others
  · obtain ⟨state,newmaster⟩ := turn.2 fun moves => rebinds (same.mp moves)
    refine ⟨state ▸ scanned.assigned,?_,?_,?_⟩
    · rintro k (early | rfl) moves
      · exact state ▸ scanned.moved k early moves
      · exact absurd moves rebinds
    · intro k stays
      rw [state]
      exact scanned.kept k fun early => stays (.inl early)
    · rw [newmaster,scanned.lost]
      constructor
      · rintro ⟨k,early,moves,ours⟩
        exact ⟨k,.inl early,moves,ours⟩
      · rintro ⟨k,early | rfl,moves,ours⟩
        · exact ⟨k,early,moves,ours⟩
        · exact absurd moves rebinds

theorem scanEnds {s : ClusterState} (table : Agreed s) (live : (s.heap sender).isSome) :
    Ends faults (Scanned s sender epoch slots curmaster fun _ => True)
      (sweep (updateSlot sender epoch slots curmaster) ⟨s,none,[],0,0⟩) := by
  have start : Scanned s sender epoch slots curmaster (fun _ => False) ⟨s,none,[],0,0⟩ :=
    ⟨.refl table,by simp,by simp,by simp⟩
  exact sweepEnds (fun done scan j undone scanned => scanTurn scanned live undone) start

end

/-- A replica whose master is not in the table, with redirections in force. -/
def Orphan (s : ClusterState) : Prop :=
  s.noRedirection = false ∧ ∃ me, s.heap s.myself = some me ∧ me.flags.master = false ∧ me.slaveof = none

/-- The number of slots of the master that an orphan does not have is read after a free slot was taken. -/
def ReadsNull (s : ClusterState) (sender : NodePtr) (epoch : Nat) (slots : Bitmap 16384) : Prop :=
  Orphan s ∧ ∃ k, Rebinds s sender epoch slots k ∧ s.slots k = none

structure Updated (s : ClusterState) (sender : NodePtr) (epoch : Nat) (slots : Bitmap 16384) (t : ClusterState) :
    Prop where
  assigned : ∃ keys, Assigned (s.setKeys keys) t t.slots
  moved : ∀ k, Rebinds s sender epoch slots k → t.slots k = some sender
  kept : ∀ k, ¬ Rebinds s sender epoch slots k → t.slots k = s.slots k

theorem scannedUpdated {s : ClusterState} {sender epoch slots curmaster scan}
    (scanned : Scanned s sender epoch slots curmaster (fun _ => True) scan) (keys : Slot → Nat) :
    Updated s sender epoch slots (scan.state.setKeys keys) :=
  ⟨⟨keys,scanned.assigned.keys keys⟩,fun k moves => scanned.moved k trivial moves,
    fun k stays => scanned.kept k fun _ => stays⟩

theorem settleEnds {s : ClusterState} {sender epoch slots curmaster scan} (table : Agreed s)
    (scanned : Scanned s sender epoch slots curmaster (fun _ => True) scan) :
    Ends (fun e => e = .nullPointer ∧ scan.state.noRedirection = false ∧ scan.newmaster.isSome ∧ curmaster = none)
      (fun t => (∃ keys, t = scan.state.setKeys keys) ∧
        ¬ (scan.state.noRedirection = false ∧ scan.newmaster.isSome ∧ curmaster = none))
      (settleUpdate curmaster scan) := by
  have kept (t : ClusterState) (which : t = scan.state ∨ t = delKeysInSlots scan.state scan.dirtySlots) :
      ∃ keys, t = scan.state.setKeys keys := by
    rcases which with rfl | rfl
    · exact ⟨_,rfl⟩
    · exact ⟨_,rfl⟩
  simp only [settleUpdate]
  cases off : scan.state.noRedirection with
  | true => exact ⟨kept _ (.inl rfl),by simp⟩
  | false =>
    simp only [Bool.false_eq_true,if_false,true_and]
    cases lost : scan.newmaster with
    | none => exact ⟨kept _ (.inr rfl),by simp⟩
    | some _ =>
      cases shown : curmaster with
      | none => exact ⟨rfl,by simp⟩
      | some p =>
        obtain ⟨k,_,_,owner⟩ := scanned.lost.mp (by simp [lost])
        have live := (scanned.assigned.nodes.live p).trans (table.owned (owner.trans shown))
        obtain ⟨master,found⟩ := Option.isSome_iff_exists.mp live
        simp only [ClusterState.deref,found,bind,Except.bind]
        split
        · exact ⟨kept _ (.inl rfl),by simp⟩
        · exact ⟨kept _ (.inr rfl),by simp⟩

theorem updateEnds {s : ClusterState} (table : Agreed s) (me : (s.heap s.myself).isSome) {sender : NodePtr}
    (live : (s.heap sender).isSome) (other : sender ≠ s.myself) (epoch : Nat) (slots : Bitmap 16384) :
    Ends (fun e => e = .nullPointer ∧ ReadsNull s sender epoch slots)
      (fun t => Updated s sender epoch slots t ∧ ¬ ReadsNull s sender epoch slots)
      (clusterUpdateSlotsConfigWith s sender epoch slots) := by
  obtain ⟨me,found⟩ := Option.isSome_iff_exists.mp me
  simp only [clusterUpdateSlotsConfigWith,ClusterState.deref,found,if_neg other]
  refine (scanEnds table live).bind fun scan scanned => ?_
  have redirection : scan.state.noRedirection = s.noRedirection := by rw [scanned.assigned.rest]
  have orphan : Orphan s ↔ s.noRedirection = false ∧ (if me.flags.master then some s.myself else me.slaveof) = none := by
    simp only [Orphan,found,Option.some.injEq,exists_eq_left']
    cases me.flags.master <;> simp
  have null : ReadsNull s sender epoch slots ↔ scan.state.noRedirection = false ∧ scan.newmaster.isSome ∧
      (if me.flags.master then some s.myself else me.slaveof) = none := by
    rw [ReadsNull,orphan,scanned.lost,redirection]
    constructor
    · rintro ⟨⟨off,none⟩,k,moves,free⟩
      exact ⟨off,⟨k,trivial,moves,free.trans none.symm⟩,none⟩
    · rintro ⟨off,⟨k,_,moves,same⟩,none⟩
      exact ⟨⟨off,none⟩,k,moves,same.trans none⟩
  refine (settleEnds table scanned).weaken ?_ ?_
  · rintro t ⟨⟨keys,rfl⟩,clear⟩
    exact ⟨scannedUpdated scanned keys,fun bad => clear (null.mp bad)⟩
  · rintro e ⟨rfl,bad⟩
    exact ⟨rfl,null.mpr bad⟩

end HpuCache.SlotUpdate
