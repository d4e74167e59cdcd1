import HpuCache.SlotKeys
import HpuCache.SlotUpdate
import Mathlib.Data.Set.Card

/-! What happens to the keys of the slots that a master loses to a claim. The keys are those of
the database, and the function deletes them unless it takes the branch in which the master would
have become a replica; that reconfiguration is commented out. -/
namespace HpuCache.LostSlots
open BitArray FaultRun KeySlot KeyedDict NodeTable SlotTable SlotKeys
open SlotUpdate hiding clusterUpdateSlotsConfigWith

inductive UpdateFault where
  | table (fault : NodeTable.Fault)
  | keys (fault : SlotKeys.Fault)

variable {Value : Type}

/-- The counter of 64 bits is returned as an `unsigned int`. -/
def countKeysInSlot (ks : Keyspace Value) (slot : Slot) : Nat := (ks.slotsKeysCount slot).toNat % 2 ^ 32

def demotes (curmaster : Option NodePtr) (scan : UpdateScan) : Run Bool :=
  match scan.newmaster, curmaster with
  | none, _ => .ok false
  | some _, none => .error .nullPointer
  | some _, some p => do
    let master ← scan.state.deref p
    .ok (decide (master.numslots = 0 ∧
      (scan.state.allowReplicaMigration = true ∨ scan.senderSlots = scan.migratedOurSlots)))

def delDirtySlots (fuel : Nat) (dirtySlots : List Slot) (ks : Keyspace Value) :
    Except SlotKeys.Fault (Keyspace Value) :=
  dirtySlots.foldlM (fun ks j => (delKeysInSlot j fuel 0 ks).map Prod.snd) ks

def settleKeys (fuel : Nat) (curmaster : Option NodePtr) (scan : UpdateScan) (ks : Keyspace Value) :
    Except UpdateFault (ClusterState × Keyspace Value) :=
  if scan.state.noRedirection then .ok (scan.state,ks)
  else do
    let left ← (demotes curmaster scan).mapError .table
    if left then .ok (scan.state,ks)
    else
      let after ← (delDirtySlots fuel scan.dirtySlots ks).mapError .keys
      .ok (scan.state.setKeys (countKeysInSlot after),after)

/-- The function over the state of the cluster and the database. -/
def clusterUpdateSlotsConfigWith (fuel : Nat) (s : ClusterState) (ks : Keyspace Value) (sender : NodePtr)
    (senderConfigEpoch : Nat) (slots : Bitmap 16384) : Except UpdateFault (ClusterState × Keyspace Value) := do
  let s := s.setKeys (countKeysInSlot ks)
  let me ← (s.deref s.myself).mapError .table
  let curmaster := if me.flags.master then some s.myself else me.slaveof
  if sender = s.myself then .ok (s,ks) else
    let scan ← (sweep (updateSlot sender senderConfigEpoch slots curmaster) ⟨s,none,[],0,0⟩).mapError .table
    settleKeys fuel curmaster scan ks

theorem settleVia (curmaster : Option NodePtr) (scan : UpdateScan) :
    settleUpdate curmaster scan = if scan.state.noRedirection then .ok scan.state else
      demotes curmaster scan >>= fun left =>
        if left then .ok scan.state else .ok (delKeysInSlots scan.state scan.dirtySlots) := by
  unfold settleUpdate demotes
  cases scan.newmaster with
  | none => rfl
  | some _ =>
    cases curmaster with
    | none => rfl
    | some p => simp only [bind_assoc,valueBind]

theorem liftOk {ε φ α : Type} {wrap : ε → φ} {run : Except ε α} {a : α} :
    run.mapError wrap = .ok a ↔ run = .ok a := by
  cases run <;> simp [Except.mapError]

theorem settledSame {fuel : Nat} {curmaster : Option NodePtr} {scan : UpdateScan} {ks after : Keyspace Value}
    {t : ClusterState} (done : settleKeys fuel curmaster scan ks = .ok (t,after)) :
    ∃ u, settleUpdate curmaster scan = .ok u ∧ t = u.setKeys t.slotsKeysCount := by
  rw [settleVia]
  simp only [settleKeys] at done
  split at done
  · next off =>
    cases done
    exact ⟨_,if_pos off,rfl⟩
  · next on =>
    rw [if_neg on]
    obtain ⟨left,decided,done⟩ := bindOk.mp done
    rw [liftOk.mp decided,valueBind]
    cases left with
    | true =>
      cases done
      exact ⟨_,rfl,rfl⟩
    | false =>
      obtain ⟨kept,_,done⟩ := bindOk.mp done
      cases done
      exact ⟨_,rfl,rfl⟩

/-- The cluster's side of the update is that of the table alone; only the numbers of keys come from the database. -/
theorem updateSame {fuel : Nat} {s t : ClusterState} {ks after : Keyspace Value} {sender : NodePtr} {epoch : Nat}
    {slots : Bitmap 16384} (done : clusterUpdateSlotsConfigWith fuel s ks sender epoch slots = .ok (t,after)) :
    ∃ u, SlotUpdate.clusterUpdateSlotsConfigWith (s.setKeys (countKeysInSlot ks)) sender epoch slots = .ok u ∧
      t = u.setKeys t.slotsKeysCount := by
  obtain ⟨me,found,done⟩ := bindOk.mp done
  refine (exists_congr fun u => and_congr_left' bindOk).mpr ?_
  simp only [liftOk] at found
  by_cases own : sender = (s.setKeys (countKeysInSlot ks)).myself
  · simp only [if_pos own] at done
    cases done
    exact ⟨_,⟨me,found,if_pos own⟩,rfl⟩
  · simp only [if_neg own] at done
    obtain ⟨scan,swept,done⟩ := bindOk.mp done
    obtain ⟨u,settled,same⟩ := settledSame done
    refine ⟨u,⟨me,found,?_⟩,same⟩
    simp only [if_neg own]
    exact bindOk.mpr ⟨scan,liftOk.mp swept,settled⟩

/-- The slot is ours and the claim takes it. -/
def Lost (s : ClusterState) (sender : NodePtr) (epoch : Nat) (slots : Bitmap 16384) (j : Slot) : Prop :=
  s.slots j = some s.myself ∧ Rebinds s sender epoch slots j

/-- No slot of ours is left, and the options or the counts say that the sender is our new master. -/
def LeftBare (s : ClusterState) (sender : NodePtr) (epoch : Nat) (slots : Bitmap 16384) : Prop :=
  (∀ j, s.slots j = some s.myself → Lost s sender epoch slots j) ∧
    (s.allowReplicaMigration = true ∨
      {j | bitmapTestBit slots j = true}.ncard = {j | Lost s sender epoch slots j}.ncard)

def ReplicaOf (t : ClusterState) (sender : NodePtr) : Prop :=
  ∃ me, t.heap t.myself = some me ∧ me.flags.master = false ∧ me.slaveof = some sender

/-- No key is left in a slot whose ownership is gone, or the node follows the sender; keys of
other slots stay. -/
structure Cleaned (s : ClusterState) (ks : Keyspace Value) (sender : NodePtr) (t : ClusterState)
    (after : Keyspace Value) :
    Prop where
  emptied : ∀ j, s.slots j = some s.myself → t.slots j ≠ some s.myself →
    keysIn j after.dict.val = [] ∨ ReplicaOf t sender
  kept : ∀ key, ¬ (s.slots (keyHashSlot key) = some s.myself ∧ t.slots (keyHashSlot key) ≠ some s.myself) →
    after.dict.val.find key = ks.dict.val.find key

section scan
variable {faults : NodeTable.Fault → Prop} {s : ClusterState} {sender : NodePtr} {epoch : Nat} {slots : Bitmap 16384}

structure Tallies (sender : NodePtr) (epoch : Nat) (slots : Bitmap 16384) (scan : UpdateScan)
    (j : Slot) (r : UpdateScan) :
    Prop where
  senders : r.senderSlots = scan.senderSlots + if bitmapTestBit slots j then 1 else 0
  lost : Lost scan.state sender epoch slots j → r.migratedOurSlots = scan.migratedOurSlots + 1 ∧
    r.dirtySlots = if scan.state.slotsKeysCount j ≠ 0 then scan.dirtySlots ++ [j] else scan.dirtySlots
  kept : ¬ Lost scan.state sender epoch slots j → r.migratedOurSlots = scan.migratedOurSlots ∧
    r.dirtySlots = scan.dirtySlots

theorem tallyEnds {scan : UpdateScan} (table : Agreed scan.state) (live : (scan.state.heap sender).isSome)
    (other : sender ≠ scan.state.myself) (j : Slot) :
    Ends faults (Tallies sender epoch slots scan j) (updateSlot sender epoch slots
      (some scan.state.myself) scan j) := by
  rw [updateSlot]
  by_cases claimed : bitmapTestBit slots j = true
  · simp only [if_pos claimed]
    have idle (stays : ¬ Rebinds scan.state sender epoch slots j) : Tallies sender epoch slots scan j
        { scan with senderSlots := scan.senderSlots + 1 } :=
      ⟨by rw [if_pos claimed],fun lost => absurd lost.2 stays,fun _ => ⟨rfl,rfl⟩⟩
    by_cases own : scan.state.slots j = some sender
    · rw [if_pos own]
      exact idle fun rebinds => rebinds.foreign own
    rw [if_neg own]
    by_cases importing : (scan.state.importingSlotsFrom j).isSome
    · rw [if_pos importing]
      refine idle fun rebinds => ?_
      rw [rebinds.closed] at importing
      contradiction
    rw [if_neg importing]
    refine (outrankedEnds table j epoch).bind fun older known => ?_
    cases older with
    | true =>
      refine (@reassignEnds faults _ table _ live j).bind fun t _ => ?_
      have rebinds : Rebinds scan.state sender epoch slots j := ⟨claimed,own,by simpa using importing,known.mp rfl⟩
      refine ⟨by rw [if_pos claimed],fun lost => ?_,fun stays => ?_⟩
      · simp only [lost.1,if_true,true_and,other,ne_eq,not_false_eq_true,and_true]
      · have foreign : scan.state.slots j ≠ some scan.state.myself := fun mine => stays ⟨mine,rebinds⟩
        simp only [foreign,false_and,if_false,and_self]
    | false => exact idle fun rebinds => absurd (known.mpr rebinds.older) (by simp)
  · rw [if_neg claimed]
    exact ⟨by rw [if_neg claimed]; rfl,fun lost => absurd lost.2.claimed claimed,fun _ => ⟨rfl,rfl⟩⟩

/-- The counters of the scan as the sizes of what they count. -/
structure Tallied (s : ClusterState) (sender : NodePtr) (epoch : Nat) (slots : Bitmap 16384) (done : Slot → Prop)
    (scan : UpdateScan) : Prop where
  scanned : Scanned s sender epoch slots (some s.myself) done scan
  senders : scan.senderSlots = {k | done k ∧ bitmapTestBit slots k = true}.ncard
  migrated : scan.migratedOurSlots = {k | done k ∧ Lost s sender epoch slots k}.ncard
  dirty : ∀ k, k ∈ scan.dirtySlots ↔ done k ∧ Lost s sender epoch slots k ∧ s.slotsKeysCount k ≠ 0
  distinct : scan.dirtySlots.Nodup

theorem countMore (done chosen : Slot → Prop) {j : Slot} (undone : ¬ done j) :
    (chosen j → {k | (done k ∨ k = j) ∧ chosen k}.ncard = {k | done k ∧ chosen k}.ncard + 1) ∧
    (¬ chosen j → {k | (done k ∨ k = j) ∧ chosen k}.ncard = {k | done k ∧ chosen k}.ncard) := by
  constructor
  · intro inside
    have same : {k | (done k ∨ k = j) ∧ chosen k} = insert j {k | done k ∧ chosen k} := by
      ext k
      simp only [Set.mem_ofPred_eq,Set.mem_insert_iff]
      constructor
      · rintro ⟨early | rfl,picked⟩
        · exact .inr ⟨early,picked⟩
        · exact .inl rfl
      · rintro (rfl | ⟨early,picked⟩)
        · exact ⟨.inr rfl,inside⟩
        · exact ⟨.inl early,picked⟩
    rw [same,Set.ncard_insert_of_notMem fun member => undone member.1]
  · intro outside
    congr 1
    ext k
    simp only [Set.mem_ofPred_eq]
    constructor
    · rintro ⟨early | rfl,picked⟩
      · exact ⟨early,picked⟩
      · exact absurd picked outside
    · exact fun member => ⟨.inl member.1,member.2⟩

theorem lostSame {scan : UpdateScan} {done : Slot → Prop}
    (scanned : Scanned s sender epoch slots (some s.myself) done scan) {j : Slot} (undone : ¬ done j) :
    Lost scan.state sender epoch slots j ↔ Lost s sender epoch slots j := by
  have here : scan.state.slots j = s.slots j := scanned.kept j fun early => absurd early undone
  have me : scan.state.myself = s.myself := by rw [scanned.assigned.rest]
  rw [Lost,Lost,rebindsSame scanned.assigned here,here,me]

theorem scanTallies (table : Agreed s) (live : (s.heap sender).isSome) (other : sender ≠ s.myself) :
    Ends faults (Tallied s sender epoch slots fun _ => True)
      (sweep (updateSlot sender epoch slots (some s.myself)) ⟨s,none,[],0,0⟩) := by
  have start : Tallied s sender epoch slots (fun _ => False) ⟨s,none,[],0,0⟩ :=
    ⟨⟨.refl table,by simp,by simp,by simp⟩,by simp,by simp,by simp,.nil⟩
  refine sweepEnds (fun done scan j undone tallied => ?_) start
  have scanned := tallied.scanned
  have me : scan.state.myself = s.myself := by rw [scanned.assigned.rest]
  have counts : scan.state.slotsKeysCount = s.slotsKeysCount := by rw [scanned.assigned.rest]
  have liveNow := (scanned.assigned.nodes.live sender).trans live
  have turn := @tallyEnds faults sender epoch slots scan scanned.assigned.table liveNow (me ▸ other) j
  rw [me] at turn
  refine ((scanTurn scanned live undone).both turn).imp fun r both => ?_
  obtain ⟨next,tallies⟩ := both
  obtain ⟨moreBits,sameBits⟩ := countMore done (fun k => bitmapTestBit slots k = true) undone
  obtain ⟨moreLost,sameLost⟩ := countMore done (Lost s sender epoch slots) undone
  have same := lostSame scanned undone
  have senders : r.senderSlots = {k | (done k ∨ k = j) ∧ bitmapTestBit slots k = true}.ncard := by
    rw [tallies.senders,tallied.senders]
    split
    · rename_i claimed
      exact (moreBits claimed).symm
    · rename_i unclaimed
      exact (sameBits unclaimed).symm
  by_cases lost : Lost s sender epoch slots j
  · obtain ⟨migrated,dirty⟩ := tallies.lost (same.mpr lost)
    have fresh : j ∉ scan.dirtySlots := fun member => undone ((tallied.dirty j).mp member).1
    refine ⟨next,senders,by rw [migrated,tallied.migrated,moreLost lost],fun k => ?_,?_⟩
    · rw [dirty,counts]
      split
      · rename_i keys
        rw [List.mem_append,List.mem_singleton,tallied.dirty]
        constructor
        · rintro (⟨early,rest⟩ | rfl)
          · exact ⟨.inl early,rest⟩
          · exact ⟨.inr rfl,lost,keys⟩
        · rintro ⟨early | rfl,rest⟩
          · exact .inl ⟨early,rest⟩
          · exact .inr rfl
      · rename_i bare
        rw [tallied.dirty]
        constructor
        · exact fun member => ⟨.inl member.1,member.2⟩
        · rintro ⟨early | rfl,rest⟩
          · exact ⟨early,rest⟩
          · exact absurd rest.2 bare
    · rw [dirty]
      split
      · exact List.nodup_append.mpr ⟨tallied.distinct,List.nodup_singleton j,fun a inside b single => by
          rw [List.mem_singleton.mp single]
          exact fun clash => fresh (clash ▸ inside)⟩
      · exact tallied.distinct
  · obtain ⟨migrated,dirty⟩ := tallies.kept fun now => lost (same.mp now)
    refine ⟨next,senders,by rw [migrated,tallied.migrated,sameLost lost],fun k =>
      ?_,by rw [dirty]; exact tallied.distinct⟩
    rw [dirty,tallied.dirty]
    constructor
    · exact fun member => ⟨.inl member.1,member.2⟩
    · rintro ⟨early | rfl,rest⟩
      · exact ⟨early,rest⟩
      · exact absurd rest.1 lost

theorem lostSlot {scan : UpdateScan} (scanned : Scanned s sender epoch slots (some s.myself) (fun _ => True) scan)
    (other : sender ≠ s.myself) {j : Slot} (mine : s.slots j = some s.myself) :
    Lost s sender epoch slots j ↔ scan.state.slots j ≠ some s.myself := by
  constructor
  · rintro ⟨_,rebinds⟩
    rw [scanned.moved j trivial rebinds]
    simpa using other
  · intro moved
    refine ⟨mine,?_⟩
    by_contra stays
    exact moved ((scanned.kept j fun _ => stays).trans mine)

theorem bareLeft {scan : UpdateScan} (scanned : Scanned s sender epoch slots (some s.myself) (fun _ => True) scan)
    (other : sender ≠ s.myself) {me : ClusterNode} (found : scan.state.heap s.myself = some me) :
    me.numslots = 0 ↔ ∀ j, s.slots j = some s.myself → Lost s sender epoch slots j := by
  have table := scanned.assigned.table
  rw [table.counted found,Nat.cast_eq_zero,Finset.card_eq_zero,Finset.eq_empty_iff_forall_notMem]
  simp only [memBits,← table.agree found]
  constructor
  · exact fun bare j mine => (lostSlot scanned other mine).mpr (bare j)
  · intro bare j held
    by_cases rebinds : Rebinds s sender epoch slots j
    · exact other (Option.some.inj ((scanned.moved j trivial rebinds).symm.trans held))
    · have mine := (scanned.kept j fun _ => rebinds).symm.trans held
      exact rebinds (bare j mine).2

theorem demotesIff {scan : UpdateScan} (tallied : Tallied s sender epoch slots (fun _ => True) scan)
    (other : sender ≠ s.myself) {me : ClusterNode} (found : s.heap s.myself = some me) :
    ∃ left, demotes (some s.myself) scan = .ok left ∧
      (left = true ↔ (∃ j, Lost s sender epoch slots j) ∧ LeftBare s sender epoch slots) := by
  have scanned := tallied.scanned
  have some : scan.newmaster.isSome ↔ ∃ j, Lost s sender epoch slots j := by
    rw [scanned.lost]
    constructor
    · rintro ⟨j,_,rebinds,mine⟩
      exact ⟨j,mine,rebinds⟩
    · rintro ⟨j,mine,rebinds⟩
      exact ⟨j,trivial,rebinds,mine⟩
  obtain ⟨now,there,_⟩ := scanned.assigned.nodes.node found
  have migration : scan.state.allowReplicaMigration = s.allowReplicaMigration := by rw [scanned.assigned.rest]
  cases shown : scan.newmaster with
  | none =>
    refine ⟨false,by simp only [demotes,shown],iff_of_false (by simp) fun both => ?_⟩
    have taken := some.mpr both.1
    rw [shown] at taken
    contradiction
  | some _ =>
    refine ⟨_,by simp only [demotes,shown,ClusterState.deref,there]; rfl,?_⟩
    rw [decide_eq_true_eq,bareLeft scanned other there,migration,tallied.senders,tallied.migrated]
    simp only [true_and]
    exact (and_iff_right (some.mp (by rw [shown]; rfl))).symm

theorem stillMaster {t : ClusterState} {owner} (assigned : Assigned s t owner) {me : ClusterNode}
    (found : s.heap s.myself = some me) (master : me.flags.master = true) : ¬ ReplicaOf t sender := by
  rintro ⟨now,there,replica,_⟩
  have same : t.myself = s.myself := by rw [assigned.rest]
  obtain ⟨now',there',alike⟩ := assigned.nodes.node found
  rw [same,there'] at there
  cases Option.some.inj there
  have flag := ofUnbound alike fun n => n.flags.master
  exact absurd (flag.trans master) (by simp [unbound,replica])

end scan

section deletion
variable {ks after : Keyspace Value} {dirtySlots : List Slot}

structure Emptied (dirtySlots : List Slot) (ks after : Keyspace Value) : Prop where
  gone : ∀ j ∈ dirtySlots, keysIn j after.dict.val = []
  kept : ∀ key, keyHashSlot key ∉ dirtySlots → after.dict.val.find key = ks.dict.val.find key

theorem keysInKept {j : Slot} (same : ∀ key, keyHashSlot key = j → after.dict.val.find key = ks.dict.val.find key) :
    (keysIn j after.dict.val).Perm (keysIn j ks.dict.val) := by
  apply (List.perm_ext_iff_of_nodup (keysInDistinct j _) (keysInDistinct j _)).mpr
  intro key
  rw [memKeysIn,memKeysIn]
  refine and_congr_right fun hash => ?_
  rw [Dict.hasFind,Dict.hasFind,same key hash]

theorem dirtyCleared (distinct : dirtySlots.Nodup) (exact : Exact ks)
    (small : ∀ j ∈ dirtySlots, (keysIn j ks.dict.val).length < 2 ^ 31) :
    ∃ after, (∀ fuel ≥ 2 ^ 31, delDirtySlots fuel dirtySlots ks = .ok after) ∧ Emptied dirtySlots ks after := by
  induction dirtySlots generalizing ks with
  | nil => exact ⟨ks,fun _ _ => rfl,by simp,fun _ _ => rfl⟩
  | cons j rest ih =>
    obtain ⟨fresh,distinct⟩ := List.nodup_cons.mp distinct
    obtain ⟨mid,first,exactMid,none,untouched⟩ :=
      delKeysAll exact rfl (show 0 + (keysIn j ks.dict.val).length < 2 ^ 31 by
        rw [Nat.zero_add]
        exact small j (by simp))
    have same (k : Slot) (apart : k ≠ j) : (keysIn k mid.dict.val).Perm (keysIn k ks.dict.val) :=
      keysInKept fun key hash => untouched.values key (hash ▸ apart)
    obtain ⟨after,last,emptied⟩ := ih distinct exactMid fun k inside => by
      rw [(same k fun clash => fresh (clash ▸ inside)).length_eq]
      exact small k (by simp [inside])
    refine ⟨after,fun fuel enough => ?_,fun k inside => ?_,fun key outside => ?_⟩
    · have room := small j (by simp)
      rw [delDirtySlots,List.foldlM_cons,first fuel (by omega)]
      exact last fuel enough
    · rcases List.mem_cons.mp inside with rfl | later
      · have stays := keysInKept fun key hash => emptied.kept key (hash ▸ fresh)
        rw [none] at stays
        exact stays.eq_nil
      · exact emptied.gone k later
    · rw [List.mem_cons,not_or] at outside
      exact (emptied.kept key outside.2).trans (untouched.values key outside.1)

/-- The loop over one slot's keys counts them in an `int`. -/
theorem dirtyOverflow {fuel : Nat} (enough : fuel ≥ 2 ^ 31) (distinct : dirtySlots.Nodup) (exact : Exact ks) {j : Slot}
    (inside : j ∈ dirtySlots) (large : 2 ^ 31 ≤ (keysIn j ks.dict.val).length) (after : Keyspace Value) :
    delDirtySlots fuel dirtySlots ks ≠ .ok after := by
  induction dirtySlots generalizing ks with
  | nil => simp at inside
  | cons k rest ih =>
    obtain ⟨fresh,distinct⟩ := List.nodup_cons.mp distinct
    rw [delDirtySlots,List.foldlM_cons]
    intro done
    obtain ⟨mid,first,last⟩ := bindOk.mp done
    by_cases small : (keysIn k ks.dict.val).length < 2 ^ 31
    · obtain ⟨mid',first',exactMid,_,untouched⟩ :=
        delKeysAll exact rfl (show 0 + (keysIn k ks.dict.val).length < 2 ^ 31 by omega)
      rw [first' fuel (by omega)] at first
      cases first
      have apart : j ≠ k := fun clash => absurd small (by rw [← clash]; omega)
      have later : j ∈ rest := (List.mem_cons.mp inside).resolve_left apart
      have same : (keysIn j mid'.dict.val).Perm (keysIn j ks.dict.val) :=
        keysInKept fun key hash => untouched.values key (hash ▸ apart)
      exact ih distinct exactMid later (same.length_eq ▸ large) last
    · have never (r : UInt32 × Keyspace Value) : delKeysInSlot k fuel 0 ks ≠ .ok r :=
        delKeysOverflow exact (by omega) (Nat.two_pow_pos 31) r
      cases run : delKeysInSlot k fuel 0 ks with
      | ok r => exact never r run
      | error e => rw [run] at first; exact nomatch first

end deletion

section losing
variable {s : ClusterState} {sender : NodePtr} {epoch : Nat} {slots : Bitmap 16384} {ks : Keyspace Value}
  {scan : UpdateScan}

/-- What may be in the slots that are lost for none of their keys to stay. -/
def Deletable (s : ClusterState) (ks : Keyspace Value) (sender : NodePtr) (epoch : Nat) (slots : Bitmap 16384) : Prop :=
  ∀ j, Lost s sender epoch slots j → (keysIn j ks.dict.val).length < 2 ^ 31 ∧
    (LeftBare s sender epoch slots → keysIn j ks.dict.val = [])

/-- With enough fuel the function returns and the keys are as they should be. -/
def NoOrphans (run : Nat → Except UpdateFault (ClusterState × Keyspace Value)) (s : ClusterState) (ks : Keyspace Value)
    (sender : NodePtr) : Prop :=
  ∃ t after, (∃ enough, ∀ fuel ≥ enough, run fuel = .ok (t,after)) ∧ Cleaned s ks sender t after

theorem cleanedIff {t : ClusterState} {after : Keyspace Value}
    (scanned : Scanned s sender epoch slots (some s.myself) (fun _ => True) scan) (other : sender ≠ s.myself)
    (slots_ : t.slots = scan.state.slots) (master : ¬ ReplicaOf t sender) :
    Cleaned s ks sender t after ↔ (∀ j, Lost s sender epoch slots j → keysIn j after.dict.val = []) ∧
      ∀ key, ¬ Lost s sender epoch slots (keyHashSlot key) → after.dict.val.find key = ks.dict.val.find key := by
  have lost (j : Slot) : s.slots j = some s.myself ∧ t.slots j ≠ some s.myself ↔ Lost s sender epoch slots j := by
    rw [slots_]
    constructor
    · exact fun ⟨mine,moved⟩ => (lostSlot scanned other mine).mpr moved
    · exact fun gone => ⟨gone.1,(lostSlot scanned other gone.1).mp gone⟩
  constructor
  · intro cleaned
    refine ⟨fun j gone => ?_,fun key stays => cleaned.kept key fun gone => stays ((lost _).mp gone)⟩
    obtain ⟨mine,moved⟩ := (lost j).mpr gone
    exact (cleaned.emptied j mine moved).resolve_right master
  · rintro ⟨emptied,kept⟩
    exact ⟨fun j mine moved => .inl (emptied j ((lost j).mp ⟨mine,moved⟩)),
      fun key stays => kept key fun gone => stays ((lost _).mpr gone)⟩

/-- The slots that are passed to the deletion, when no lost slot has too many keys. -/
theorem dirtyEmptied {after : Keyspace Value} (tallied : Tallied s sender epoch slots (fun _ => True) scan)
    (counts : s.slotsKeysCount = countKeysInSlot ks) (exact : Exact ks)
    (small : ∀ j, Lost s sender epoch slots j → (keysIn j ks.dict.val).length < 2 ^ 31)
    (emptied : Emptied scan.dirtySlots ks after) :
    (∀ j, Lost s sender epoch slots j → keysIn j after.dict.val = []) ∧
      ∀ key, ¬ Lost s sender epoch slots (keyHashSlot key) → after.dict.val.find key = ks.dict.val.find key := by
  refine ⟨fun j lost => ?_,fun key stays => emptied.kept key fun inside => stays ((tallied.dirty _).mp inside).2.1⟩
  by_cases inside : j ∈ scan.dirtySlots
  · exact emptied.gone j inside
  · have bare : s.slotsKeysCount j = 0 := by
      by_contra keys
      exact inside ((tallied.dirty j).mpr ⟨trivial,lost,keys⟩)
    have few := small j lost
    rw [counts,countKeysInSlot,exact.counted,Nat.mod_eq_of_lt (by omega)] at bare
    have stays := keysInKept fun key hash => emptied.kept key (hash ▸ inside)
    rw [List.eq_nil_of_length_eq_zero bare] at stays
    exact stays.eq_nil

theorem settledIff (tallied : Tallied s sender epoch slots (fun _ => True) scan) (other : sender ≠ s.myself)
    (counts : s.slotsKeysCount = countKeysInSlot ks) (exact : Exact ks) (redirected : s.noRedirection = false)
    {me : ClusterNode} (found : s.heap s.myself = some me) (master : me.flags.master = true) :
    NoOrphans (fun fuel => settleKeys fuel (some s.myself) scan ks) s ks sender ↔
      Deletable s ks sender epoch slots := by
  have scanned := tallied.scanned
  have still : ¬ ReplicaOf scan.state sender := stillMaster scanned.assigned found master
  have redirection : scan.state.noRedirection = false := by rw [scanned.assigned.rest]; exact redirected
  obtain ⟨left,decided,leftIff⟩ := demotesIff tallied other found
  cases left with
  | true =>
    obtain ⟨-,bare⟩ := leftIff.mp rfl
    have run (fuel : Nat) : settleKeys fuel (some s.myself) scan ks = .ok (scan.state,ks) := by
      simp only [settleKeys,redirection,Bool.false_eq_true,if_false,decided]
      rfl
    have cleaned : Cleaned s ks sender scan.state ks ↔ _ := cleanedIff scanned other rfl still
    constructor
    · rintro ⟨t,after,⟨enough,done⟩,clean⟩ j lost
      have same := (run enough).symm.trans (done enough (Nat.le_refl _))
      cases same
      have none := (cleaned.mp clean).1 j lost
      exact ⟨by rw [none]; exact Nat.two_pow_pos 31,fun _ => none⟩
    · exact fun deletable => ⟨_,_,⟨0,fun fuel _ => run fuel⟩,
        cleaned.mpr ⟨fun j lost => (deletable j lost).2 bare,fun _ _ => rfl⟩⟩
  | false =>
    have run (fuel : Nat) : settleKeys fuel (some s.myself) scan ks =
        ((delDirtySlots fuel scan.dirtySlots ks).mapError UpdateFault.keys >>= fun after =>
          .ok (scan.state.setKeys (countKeysInSlot after),after)) := by
      simp only [settleKeys,redirection,Bool.false_eq_true,if_false,decided]
      rfl
    have settled {fuel : Nat} {after : Keyspace Value} (done : delDirtySlots fuel scan.dirtySlots ks = .ok after) :
        settleKeys fuel (some s.myself) scan ks = .ok (scan.state.setKeys (countKeysInSlot after),after) := by
      rw [run,done]
      rfl
    have cleaned (after : Keyspace Value) :
        Cleaned s ks sender (scan.state.setKeys (countKeysInSlot after)) after ↔ _ := cleanedIff scanned other rfl still
    constructor
    · rintro ⟨t,after,⟨enough,done⟩,clean⟩ j lost
      have last := done (max enough (2 ^ 31)) (Nat.le_max_left _ _)
      have small (k : Slot) (inside : k ∈ scan.dirtySlots) : (keysIn k ks.dict.val).length < 2 ^ 31 := by
        by_contra large
        cases deleted : delDirtySlots (max enough (2 ^ 31)) scan.dirtySlots ks with
        | ok mid =>
          exact dirtyOverflow (Nat.le_max_right _ _) tallied.distinct exact inside (Nat.le_of_not_lt large) mid deleted
        | error e =>
          simp only [run,deleted] at last
          exact nomatch last
      obtain ⟨mid,deleted,emptied⟩ := dirtyCleared tallied.distinct exact small
      cases (settled (deleted _ (Nat.le_max_right _ _))).symm.trans last
      have none := ((cleaned after).mp clean).1 j lost
      refine ⟨?_,fun bare => absurd (leftIff.mpr ⟨⟨j,lost⟩,bare⟩) (by simp)⟩
      by_cases inside : j ∈ scan.dirtySlots
      · exact small j inside
      · have stays := keysInKept fun key hash => emptied.kept key (hash ▸ inside)
        rw [← stays.length_eq,none]
        exact Nat.two_pow_pos 31
    · intro deletable
      obtain ⟨after,done,emptied⟩ := dirtyCleared tallied.distinct exact fun j inside =>
        (deletable j ((tallied.dirty j).mp inside).2.1).1
      refine ⟨_,after,⟨2 ^ 31,fun fuel enough => settled (done fuel enough)⟩,?_⟩
      exact (cleaned after).mpr
        (dirtyEmptied tallied counts exact (fun j lost => (deletable j lost).1) emptied)

theorem keyedTable (table : Agreed s) (keys : Slot → Nat) : Agreed (s.setKeys keys) :=
  ((Assigned.refl table).keys keys).table

theorem keyedLost (keys : Slot → Nat) (j : Slot) :
    Lost (s.setKeys keys) sender epoch slots j ↔ Lost s sender epoch slots j := by
  constructor
  · rintro ⟨mine,rebinds⟩
    exact ⟨mine,rebinds.claimed,rebinds.foreign,rebinds.closed,rebinds.older⟩
  · rintro ⟨mine,rebinds⟩
    exact ⟨mine,rebinds.claimed,rebinds.foreign,rebinds.closed,rebinds.older⟩

theorem keyedDeletable (keys : Slot → Nat) :
    Deletable (s.setKeys keys) ks sender epoch slots ↔ Deletable s ks sender epoch slots := by
  simp only [Deletable,LeftBare,keyedLost]
  rfl

theorem keyedOrphans (keys : Slot → Nat) (run : Nat → Except UpdateFault (ClusterState × Keyspace Value)) :
    NoOrphans run (s.setKeys keys) ks sender ↔ NoOrphans run s ks sender := by
  constructor
  · exact fun ⟨t,after,done,clean⟩ => ⟨t,after,done,clean.emptied,clean.kept⟩
  · exact fun ⟨t,after,done,clean⟩ => ⟨t,after,done,clean.emptied,clean.kept⟩

theorem othersIff (table : Agreed s) (exact : Exact ks) {me : ClusterNode} (found : s.heap s.myself = some me)
    (master : me.flags.master = true) (redirected : s.noRedirection = false) (live : (s.heap sender).isSome)
    (other : sender ≠ s.myself) :
    NoOrphans (fun fuel => clusterUpdateSlotsConfigWith fuel s ks sender epoch slots) s ks sender ↔
      Deletable s ks sender epoch slots := by
  have keyed := keyedTable table (countKeysInSlot ks)
  have start : (s.setKeys (countKeysInSlot ks)).heap (s.setKeys (countKeysInSlot ks)).myself = some me := found
  obtain ⟨scan,swept,tallied⟩ := endsTotal.mp (@scanTallies (fun _ => False) _ sender epoch slots keyed live other)
  have run (fuel : Nat) : clusterUpdateSlotsConfigWith fuel s ks sender epoch slots =
      settleKeys fuel (some s.myself) scan ks := by
    have notMe : ¬ sender = (s.setKeys (countKeysInSlot ks)).myself := other
    simp only [clusterUpdateSlotsConfigWith,ClusterState.deref,start,Except.mapError,bind,Except.bind,master,if_true,
      if_neg notMe]
    rw [swept]
    rfl
  simp only [run]
  rw [← keyedOrphans (countKeysInSlot ks),← keyedDeletable (countKeysInSlot ks)]
  exact settledIff tallied other rfl exact redirected start master

/-- The keys of the lost slots go and no others, exactly when the node keeps a slot, or what would have made it
a replica is not in force, or the lost slots hold no key at all, as far as an `int` counts the keys of a slot. -/
theorem noOrphanKeys (table : Agreed s) (exact : Exact ks) {me : ClusterNode} (found : s.heap s.myself = some me)
    (master : me.flags.master = true) (redirected : s.noRedirection = false) (live : (s.heap sender).isSome) :
    NoOrphans (fun fuel => clusterUpdateSlotsConfigWith fuel s ks sender epoch slots) s ks sender ↔
      Deletable s ks sender epoch slots := by
  by_cases own : sender = s.myself
  · refine iff_of_true ⟨s.setKeys (countKeysInSlot ks),ks,⟨0,fun fuel _ => ?_⟩,?_,fun _ _ => rfl⟩ ?_
    · have start : (s.setKeys (countKeysInSlot ks)).heap (s.setKeys (countKeysInSlot ks)).myself = some me := found
      simp only [clusterUpdateSlotsConfigWith,ClusterState.deref,start,Except.mapError,bind,Except.bind]
      exact if_pos own
    · exact fun j mine moved => absurd mine moved
    · exact fun j lost => absurd (own ▸ lost.1) lost.2.foreign
  · exact othersIff table exact found master redirected live own

end losing

def twoSlots (h : Slot) : Bitmap 16384 := bitmapSetBit (bitmapSetBit emptyBitmap 0) h

theorem testTwo {h j : Slot} : bitmapTestBit (twoSlots h) j = true ↔ j = h ∨ j = 0 := by
  rw [twoSlots,testSet,testSet,testEmpty,Bool.false_or,Bool.or_eq_true,decide_eq_true_eq,decide_eq_true_eq,or_comm]

/-- This node owns slot 0 and one more; another master is known. -/
def holder (h : Slot) : ClusterState :=
  let s := clusterInit 0 [97]
  { s with
    heap := fun
      | 0 => some { createClusterNode [97] { NodeFlags.none with myself := true, master := true } with
        slots := twoSlots h
        numslots := 2 }
      | 1 => some (createClusterNode [98] { NodeFlags.none with master := true })
      | _ => none
    slots := fun j => if j = h ∨ j = 0 then some 0 else none }

theorem holderAgreed {h : Slot} (apart : h ≠ 0) : Agreed (holder h) := by
  refine ⟨fun {p n} found j => ?_,fun {p n} found => ?_,fun {j p} owner => ?_⟩
  · match p with
    | 0 =>
      cases found
      rw [testTwo]
      exact Option.ite_none_right_eq_some.trans (and_iff_left rfl)
    | 1 =>
      cases found
      refine iff_of_false (fun owner => ?_) (by simp [createClusterNode])
      exact absurd (Option.ite_none_right_eq_some.mp owner).2 (by decide)
  · match p with
    | 0 =>
      cases found
      rw [twoSlots,bitsSet,bitsSet,bitsEmpty,Finset.card_insert_of_notMem (by simpa using apart)]
      rfl
    | 1 =>
      cases found
      simp [createClusterNode,bitsEmpty]
  · simp only [holder] at owner
    split at owner
    · cases owner
      rfl
    · exact nomatch owner

theorem holderOwns {h j : Slot} (owned : j = h ∨ j = 0) : (holder h).slots j = some 0 := if_pos owned

theorem holderLost {h : Slot} {slots : Bitmap 16384} {j : Slot} (owned : j = h ∨ j = 0) :
    Lost (holder h) 1 1 slots j ↔ bitmapTestBit slots j = true := by
  have mine := holderOwns owned
  refine ⟨fun lost => lost.2.claimed,fun claimed => ⟨mine,claimed,?_,rfl,fun p owner => ?_⟩⟩
  · rw [mine]
    exact fun clash => nomatch clash
  · cases mine.symm.trans owner
    exact Nat.one_pos

/-- The slot of the key is lost and slot 0 stays. -/
theorem noOrphanKeysShown : ∃ ks : Keyspace Nat, play 16 [.add [97] 1] = .ok ks ∧
    NoOrphans (fun fuel => clusterUpdateSlotsConfigWith fuel (holder (keyHashSlot [97])) ks 1 1
      (bitmapSetBit emptyBitmap (keyHashSlot [97]))) (holder (keyHashSlot [97])) ks 1 := by
  have run : play 16 [.add [97] (1 : Nat)] = .ok _ := rfl
  have apart : keyHashSlot [97] ≠ 0 := by decide +kernel
  refine ⟨_,run,(noOrphanKeys (holderAgreed apart) (exactPlay (by simp [Op.Single]) run) rfl rfl rfl rfl).mpr ?_⟩
  refine fun j _ => ⟨Nat.lt_of_le_of_lt (List.length_filter_le _ _) (by decide),fun bare => ?_⟩
  have taken := (holderLost (.inr rfl)).mp (bare.1 0 (holderOwns (.inr rfl)))
  rw [testSet,testEmpty,Bool.false_or,decide_eq_true_eq] at taken
  exact absurd taken.symm apart

/-- Both slots are lost: the node keeps the key and stays a master. -/
theorem bareMasterKeeps : ∃ ks : Keyspace Nat, play 16 [.add [97] 1] = .ok ks ∧ Agreed (holder (keyHashSlot [97])) ∧
    ¬ NoOrphans (fun fuel => clusterUpdateSlotsConfigWith fuel (holder (keyHashSlot [97])) ks 1 1
      (twoSlots (keyHashSlot [97]))) (holder (keyHashSlot [97])) ks 1 := by
  have run : play 16 [.add [97] (1 : Nat)] = .ok _ := rfl
  have apart : keyHashSlot [97] ≠ 0 := by decide +kernel
  refine ⟨_,run,holderAgreed apart,?_⟩
  rw [othersIff (holderAgreed apart) (exactPlay (by simp [Op.Single]) run) rfl rfl rfl rfl (by decide)]
  intro deletable
  have none := (deletable (keyHashSlot [97]) ((holderLost (.inl rfl)).mpr
      (testTwo.mpr (.inl rfl)))).2 ⟨fun j mine => ?_,.inl rfl⟩
  · exact List.eq_nil_iff_forall_not_mem.mp none [97] (memKeysIn.mpr ⟨rfl,rfl⟩)
  · have owned := (Option.ite_none_right_eq_some.mp mine).1
    exact (holderLost owned).mpr (testTwo.mpr owned)

end HpuCache.LostSlots
