import HpuCache.SlotCommands

/-! The bulk transfer next to the command for one slot, run over the slots of a node. Both
move the same slots; they differ in the markers they close and in the epoch they take. -/
namespace HpuCache.BulkTransfer
open BitArray FaultRun KeySlot NodeTable SlotTable SlotUpdate SlotCommands

/-- A record without its epoch and without what a change of owner writes. -/
def timeless (n : ClusterNode) : ClusterNode := { unbound n with configEpoch := 0 }

/-- The state after some turns: the slots that are done belong to `b`, and of their migration
markers those that `drops` says are gone. -/
structure Turned (s : ClusterState) (b : NodePtr) (drops done : Slot → Prop) (t : ClusterState) : Prop where
  myself : t.myself = s.myself
  entries : t.nodes = s.nodes
  keys : t.slotsKeysCount = s.slotsKeysCount
  nodes : ∀ p, (t.heap p).map timeless = (s.heap p).map timeless
  table : Agreed t
  moved : ∀ k, done k → t.slots k = some b
  kept : ∀ k, ¬ done k → t.slots k = s.slots k
  dropped : ∀ k, done k → drops k → t.migratingSlotsTo k = none
  carried : ∀ k, ¬ (done k ∧ drops k) → t.migratingSlotsTo k = s.migratingSlotsTo k
  closed : ∀ k, done k → b = s.myself → t.importingSlotsFrom k = none
  left : ∀ k, ¬ (done k ∧ b = s.myself) → t.importingSlotsFrom k = s.importingSlotsFrom k

structure SameEpochs (s t : ClusterState) : Prop where
  current : t.currentEpoch = s.currentEpoch
  config : ∀ p, epochOf t p = epochOf s p

/-- New owners and possibly new epochs, and nothing else. -/
structure Reowned (t u : ClusterState) (owner : Slot → Option NodePtr) : Prop where
  myself : u.myself = t.myself
  entries : u.nodes = t.nodes
  keys : u.slotsKeysCount = t.slotsKeysCount
  migrating : u.migratingSlotsTo = t.migratingSlotsTo
  importing : u.importingSlotsFrom = t.importingSlotsFrom
  nodes : ∀ p, (u.heap p).map timeless = (t.heap p).map timeless
  table : Agreed u
  slots : u.slots = owner

theorem reownedAssigned {t u : ClusterState} {owner} (assigned : Assigned t u owner) : Reowned t u owner := by
  have rest := assigned.rest
  refine ⟨by rw [rest],by rw [rest],by rw [rest],by rw [rest],by rw [rest],fun p => ?_,assigned.table,assigned.slots⟩
  have same := congrArg (Option.map timeless) (assigned.nodes p)
  have twice : timeless ∘ unbound = timeless := rfl
  simpa only [Option.map_map,twice] using same

theorem Reowned.trans {t u v : ClusterState} {owner last} (first : Reowned t u owner) (second : Reowned u v last) :
    Reowned t v last :=
  ⟨second.myself.trans first.myself,second.entries.trans first.entries,second.keys.trans first.keys,
    second.migrating.trans first.migrating,second.importing.trans first.importing,
    fun p => (second.nodes p).trans (first.nodes p),second.table,second.slots⟩

/-- The condition of `clusterBumpConfigEpochWithoutConsensus`. -/
def Stale (s : ClusterState) : Prop := epochOf s s.myself = 0 ∨ epochOf s s.myself ≠ clusterGetMaxEpoch s

section
variable {s t u : ClusterState} {a b : NodePtr} {drops done : Slot → Prop}

theorem Turned.live (turned : Turned s b drops done t) (p : NodePtr) : (t.heap p).isSome = (s.heap p).isSome := by
  have mapped := congrArg Option.isSome (turned.nodes p)
  simpa only [Option.isSome_map] using mapped

theorem Turned.slave (turned : Turned s b drops done t) {me m : ClusterNode} (found : s.heap s.myself = some me)
    (there : t.heap t.myself = some m) : m.flags.slave = me.flags.slave := by
  have mapped := turned.nodes s.myself
  rw [turned.myself] at there
  rw [found,there,Option.map_some,Option.map_some,Option.some.injEq] at mapped
  have flags := congrArg (fun n : ClusterNode => n.flags.slave) mapped
  exact flags

theorem turnedStart (table : Agreed s) : Turned s b drops (fun _ => False) s := by
  constructor <;> simp [table]

theorem SameEpochs.refl (s : ClusterState) : SameEpochs s s := ⟨rfl,fun _ => rfl⟩

theorem SameEpochs.trans (first : SameEpochs s t) (second : SameEpochs t u) : SameEpochs s u :=
  ⟨second.current.trans first.current,fun p => (second.config p).trans (first.config p)⟩

theorem maxSame (same : SameEpochs s t) (entries : t.nodes = s.nodes) :
    clusterGetMaxEpoch t = clusterGetMaxEpoch s := by
  have ranks : epochOf t = epochOf s := funext same.config
  simp only [clusterGetMaxEpoch,entries,same.current]
  exact congrArg (fun rank => s.nodes.entries.foldl (fun best e => max best (rank e.node)) s.currentEpoch) ranks

theorem staleSame (same : SameEpochs s t) (entries : t.nodes = s.nodes) (myself : t.myself = s.myself) :
    Stale t ↔ Stale s := by
  rw [Stale,Stale,same.config,maxSame same entries,myself]

theorem assignedEpochs {owner} (assigned : Assigned s t owner) : SameEpochs s t :=
  ⟨by rw [assigned.rest],sameEpoch assigned.nodes⟩

theorem bumpEnds {faults : Fault → Prop} (table : Agreed t) (me : (t.heap t.myself).isSome) :
    Ends faults (fun r => Reowned t r.1 t.slots ∧ (¬ Stale t → SameEpochs t r.1) ∧
      (Stale t → t.currentEpoch < r.1.currentEpoch)) (clusterBumpConfigEpochWithoutConsensus t) := by
  obtain ⟨me,found⟩ := Option.isSome_iff_exists.mp me
  have rank : epochOf t t.myself = me.configEpoch := by rw [epochOf,found]; rfl
  simp only [clusterBumpConfigEpochWithoutConsensus,ClusterState.deref,found,bind,Except.bind]
  split
  · rename_i stale
    have shown : Stale t := by rwa [Stale,rank]
    refine ⟨⟨rfl,rfl,rfl,rfl,rfl,fun p => ?_,?_,rfl⟩,fun fresh => absurd shown fresh,fun _ => Nat.lt_succ_self _⟩
    · by_cases here : p = t.myself
      · subst here
        simp [found,timeless,unbound]
      · simp [Function.update_of_ne here]
    · have raised : Agreed { t with currentEpoch := t.currentEpoch + 1 } := ⟨table.agree,table.counted,table.owned⟩
      exact agreedRecord raised found rfl rfl
  · rename_i fresh
    have shown : ¬ Stale t := by rwa [Stale,rank]
    exact ⟨reownedAssigned (.refl table),fun _ => .refl t,fun stale => absurd stale shown⟩

theorem turnedStep (turned : Turned s b drops done t) {j : Slot} (undone : ¬ done j) {marked : ClusterState}
    (mark : (drops j ∧ marked = clearMigrating t j) ∨ (¬ drops j ∧ marked = t))
    (reowned : Reowned marked u (Function.update t.slots j (some b))) {last : ClusterState}
    (close : (b = s.myself ∧ last = clearImporting u j) ∨ (b ≠ s.myself ∧ last = u)) :
    Turned s b drops (fun k => done k ∨ k = j) last := by
  have first : marked.myself = t.myself ∧ marked.nodes = t.nodes ∧ marked.slotsKeysCount = t.slotsKeysCount ∧
      marked.heap = t.heap ∧ marked.importingSlotsFrom = t.importingSlotsFrom ∧
      (drops j → marked.migratingSlotsTo j = none) ∧
      ∀ k, ¬ (k = j ∧ drops j) → marked.migratingSlotsTo k = t.migratingSlotsTo k := by
    rcases mark with ⟨drop,rfl⟩ | ⟨keep,rfl⟩
    · refine ⟨rfl,rfl,rfl,rfl,rfl,fun _ => by simp [clearMigrating],fun k apart => ?_⟩
      have other : k ≠ j := fun here => apart ⟨here,drop⟩
      simp only [clearMigrating,Function.update_of_ne other]
    · exact ⟨rfl,rfl,rfl,rfl,rfl,fun drop => absurd drop keep,fun _ _ => rfl⟩
  have second : last.myself = u.myself ∧ last.nodes = u.nodes ∧ last.slotsKeysCount = u.slotsKeysCount ∧
      last.heap = u.heap ∧ last.slots = u.slots ∧ last.migratingSlotsTo = u.migratingSlotsTo ∧ Agreed last ∧
      (b = s.myself → last.importingSlotsFrom j = none) ∧
      ∀ k, ¬ (k = j ∧ b = s.myself) → last.importingSlotsFrom k = u.importingSlotsFrom k := by
    have table := reowned.table
    rcases close with ⟨mine,rfl⟩ | ⟨others,rfl⟩
    · refine ⟨rfl,rfl,rfl,rfl,rfl,rfl,⟨table.agree,table.counted,table.owned⟩,fun _ => by simp [clearImporting],
        fun k apart => ?_⟩
      have other : k ≠ j := fun here => apart ⟨here,mine⟩
      simp only [clearImporting,Function.update_of_ne other]
    · exact ⟨rfl,rfl,rfl,rfl,rfl,rfl,table,fun mine => absurd mine others,fun _ _ => rfl⟩
  obtain ⟨myself,entries,keys,heap,importing,gone,carried⟩ := first
  obtain ⟨myself',entries',keys',heap',slots',migrating',table,closed,left⟩ := second
  refine ⟨?_,?_,?_,fun p => ?_,table,?_,?_,?_,?_,?_,?_⟩
  · rw [myself',reowned.myself,myself,turned.myself]
  · rw [entries',reowned.entries,entries,turned.entries]
  · rw [keys',reowned.keys,keys,turned.keys]
  · rw [heap',reowned.nodes,heap,turned.nodes]
  · rintro k (early | rfl)
    · rw [slots',reowned.slots]
      by_cases here : k = j
      · rw [here,Function.update_self]
      · rw [Function.update_of_ne here,turned.moved k early]
    · rw [slots',reowned.slots,Function.update_self]
  · intro k waits
    have here : k ≠ j := fun at_ => waits (.inr at_)
    rw [slots',reowned.slots,Function.update_of_ne here,turned.kept k fun early => waits (.inl early)]
  · rintro k (early | rfl) drop
    · rw [migrating',reowned.migrating]
      by_cases here : k = j
      · rw [here]
        exact gone (here ▸ drop)
      · rw [carried k fun both => here both.1]
        exact turned.dropped k early drop
    · rw [migrating',reowned.migrating]
      exact gone drop
  · intro k stays
    rw [migrating',reowned.migrating,carried k]
    · exact turned.carried k fun both => stays ⟨.inl both.1,both.2⟩
    · rintro ⟨rfl,drop⟩
      exact stays ⟨.inr rfl,drop⟩
  · rintro k (early | rfl) mine
    · by_cases here : k = j
      · rw [here]
        exact closed mine
      · rw [left k fun both => here both.1,reowned.importing,importing]
        exact turned.closed k early mine
    · exact closed mine
  · intro k stays
    rw [left k,reowned.importing,importing]
    · exact turned.left k fun both => stays ⟨.inl both.1,both.2⟩
    · rintro ⟨rfl,mine⟩
      exact stays ⟨.inr rfl,mine⟩

theorem markedAgreed {marked : ClusterState} {j : Slot} (table : Agreed t)
    (mark : marked = clearMigrating t j ∨ marked = t) : Agreed marked ∧ SameEpochs t marked ∧ marked.heap = t.heap ∧
      marked.slots = t.slots := by
  rcases mark with rfl | rfl
  · exact ⟨⟨table.agree,table.counted,table.owned⟩,⟨rfl,fun _ => rfl⟩,rfl,rfl⟩
  · exact ⟨table,.refl marked,rfl,rfl⟩

theorem clearNone {marked : ClusterState} {j : Slot} (none : marked.migratingSlotsTo j = none) :
    clearMigrating marked j = marked := by
  rw [clearMigrating,← none,Function.update_eq_self]

theorem closeNone {marked : ClusterState} {j : Slot} (none : marked.importingSlotsFrom j = none) :
    clearImporting marked j = marked := by
  rw [clearImporting,← none,Function.update_eq_self]

theorem nodeBit (table : Agreed t) {p : NodePtr} (live : (t.heap p).isSome) (j : Slot) :
    ∃ bit, nodeGetSlotBit t p j = .ok bit ∧ (bit = true ↔ t.slots j = some p) := by
  obtain ⟨n,found⟩ := Option.isSome_iff_exists.mp live
  exact ⟨_,by simp only [nodeGetSlotBit,ClusterState.deref,found,bind,Except.bind],(table.agree found j).symm⟩

theorem moveOneEnds {faults : Fault → Prop} (turned : Turned s b (fun _ => True) done t) (source : (s.heap a).isSome)
    (target : (s.heap b).isSome) {j : Slot} (undone : ¬ done j) :
    Ends faults (fun u => SameEpochs t u ∧
      ((s.slots j = some a ∨ s.slots j = some b) → Turned s b (fun _ => True) (fun k => done k ∨ k = j) u) ∧
      (¬ (s.slots j = some a ∨ s.slots j = some b) → u = t)) (moveOne a b t j) := by
  obtain ⟨first,readFirst,isFirst⟩ := nodeBit turned.table ((turned.live a).trans source) j
  obtain ⟨second,readSecond,isSecond⟩ := nodeBit turned.table ((turned.live b).trans target) j
  rw [turned.kept j undone] at isFirst isSecond
  simp only [moveOne,readFirst,readSecond,bind,Except.bind]
  split
  · rename_i neither
    refine ⟨.refl t,fun some => ?_,fun _ => rfl⟩
    rw [← isFirst,← isSecond,neither.1,neither.2] at some
    simp at some
  · rename_i either
    have own : s.slots j = some a ∨ s.slots j = some b := by
      rw [← isFirst,← isSecond]
      cases first <;> cases second <;> simp at either ⊢
    have mark : (if (t.migratingSlotsTo j).isSome then clearMigrating t j else t) = clearMigrating t j := by
      split
      · rfl
      · rename_i none
        rw [clearNone (by simpa using none)]
    rw [mark]
    obtain ⟨table,epochs,heap,slots⟩ := markedAgreed turned.table (.inl (rfl : _ = clearMigrating t j))
    refine (reassignEnds table (heap ▸ (turned.live b).trans target) j).bind fun u assigned => ?_
    rw [slots] at assigned
    have same := epochs.trans (assignedEpochs assigned)
    have step {last : ClusterState}
        (close : (b = s.myself ∧ last = clearImporting u j) ∨ (b ≠ s.myself ∧ last = u)) :=
      turnedStep turned undone (.inl ⟨trivial,rfl⟩) (reownedAssigned assigned) close
    have me : u.myself = s.myself := by rw [assigned.rest]; exact turned.myself
    split
    · rename_i mine
      exact ⟨⟨same.current,same.config⟩,fun _ => step (.inl ⟨mine.1.trans me,rfl⟩),fun not => absurd own not⟩
    · rename_i not
      refine ⟨same,fun _ => ?_,fun others => absurd own others⟩
      by_cases mine : b = s.myself
      · refine step (.inl ⟨mine,(closeNone ?_).symm⟩)
        simpa [mine,me] using not
      · exact step (.inr ⟨mine,rfl⟩)

theorem setslotNodeEnds {faults : Fault → Prop} (turned : Turned s b (fun k => s.slotsKeysCount k = 0) done t)
    (target : (s.heap b).isSome) (me : (s.heap s.myself).isSome) {j : Slot} (undone : ¬ done j) :
    Ends faults (fun u => Turned s b (fun k => s.slotsKeysCount k = 0) (fun k => done k ∨ k = j) u ∧
      (¬ (b = s.myself ∧ s.importingSlotsFrom j ≠ none ∧ Stale t) → SameEpochs t u) ∧
      (b = s.myself ∧ s.importingSlotsFrom j ≠ none ∧ Stale t → t.currentEpoch < u.currentEpoch))
      (setslotNode t j b) := by
  obtain ⟨marked,mark,shape⟩ : ∃ marked,
      ((s.slotsKeysCount j = 0 ∧ marked = clearMigrating t j) ∨ (¬ s.slotsKeysCount j = 0 ∧ marked = t)) ∧
      (if t.slotsKeysCount j = 0 ∧ (t.migratingSlotsTo j).isSome then clearMigrating t j else t) = marked := by
    rw [turned.keys]
    by_cases free : s.slotsKeysCount j = 0
    · refine ⟨_,.inl ⟨free,rfl⟩,?_⟩
      split
      · rfl
      · rename_i not
        rw [clearNone (by simpa [free] using not)]
    · exact ⟨_,.inr ⟨free,rfl⟩,if_neg fun both => free both.1⟩
  obtain ⟨table,epochs,heap,slots⟩ := markedAgreed turned.table (mark.imp And.right And.right)
  have frame : marked.myself = t.myself ∧ marked.nodes = t.nodes ∧
      marked.importingSlotsFrom = t.importingSlotsFrom := by
    rcases mark with ⟨_,rfl⟩ | ⟨_,rfl⟩ <;> exact ⟨rfl,rfl,rfl⟩
  simp only [setslotNode,shape]
  refine (reassignEnds table (heap ▸ (turned.live b).trans target) j).bind fun u assigned => ?_
  rw [slots] at assigned
  have same := epochs.trans (assignedEpochs assigned)
  have reowned := reownedAssigned assigned
  have myself : u.myself = s.myself := by rw [reowned.myself,frame.1,turned.myself]
  have importing : u.importingSlotsFrom j = s.importingSlotsFrom j := by
    rw [reowned.importing,frame.2.2,turned.left j fun both => undone both.1]
  have stale : Stale u ↔ Stale t :=
    staleSame same (reowned.entries.trans frame.2.1) (reowned.myself.trans frame.1)
  rw [myself,importing]
  split
  · rename_i imports
    have live : (u.heap u.myself).isSome := by
      rw [myself,assigned.nodes.live,heap,turned.live]
      exact me
    refine (bumpEnds reowned.table live).bind fun r bumped => ?_
    obtain ⟨next,kept,raised⟩ := bumped
    rw [reowned.slots] at next
    have foreign : s.importingSlotsFrom j ≠ none := by
      intro none
      rw [none] at imports
      exact absurd imports.2 (by simp)
    refine ⟨turnedStep turned undone mark (reowned.trans next) (.inl ⟨imports.1,rfl⟩),fun calm => ?_,fun both => ?_⟩
    · have fresh : ¬ Stale u := fun old => calm ⟨imports.1,foreign,stale.mp old⟩
      exact ⟨(same.trans (kept fresh)).current,(same.trans (kept fresh)).config⟩
    · have above := raised (stale.mpr both.2.2)
      rw [same.current] at above
      exact above
  · rename_i stays
    have quiet : ¬ (b = s.myself ∧ s.importingSlotsFrom j ≠ none ∧ Stale t) := by
      rintro ⟨mine,foreign,_⟩
      exact stays ⟨mine,Option.isSome_iff_ne_none.mpr foreign⟩
    refine ⟨?_,fun _ => same,fun both => absurd both quiet⟩
    by_cases mine : b = s.myself
    · refine turnedStep turned undone mark reowned (.inl ⟨mine,(closeNone ?_).symm⟩)
      rw [importing]
      simpa [mine] using stays
    · exact turnedStep turned undone mark reowned (.inr ⟨mine,rfl⟩)

theorem Turned.same {others : Slot → Prop} (turned : Turned s b drops done t) (same : ∀ k, others k ↔ done k) :
    Turned s b drops others t := by
  obtain rfl : others = done := funext fun k => propext (same k)
  exact turned

theorem bulkEnds {faults : Fault → Prop} (table : Agreed s) (source : (s.heap a).isSome) (target : (s.heap b).isSome) :
    Ends faults (fun t => SameEpochs s t ∧
      Turned s b (fun _ => True) (fun k => s.slots k = some a ∨ s.slots k = some b) t) (sweep (moveOne a b) s) := by
  have start : SameEpochs s s ∧
      Turned s b (fun _ => True) (fun k => False ∧ (s.slots k = some a ∨ s.slots k = some b)) s :=
    ⟨.refl s,(turnedStart table).same fun k => by simp⟩
  refine (@sweepEnds _ _ faults _ _ (fun done t => SameEpochs s t ∧
    Turned s b (fun _ => True) (fun k => done k ∧ (s.slots k = some a ∨ s.slots k = some b)) t)
    (fun done t j undone => ?_) _ start).imp fun t last => ⟨last.1,last.2.same fun k => by simp⟩
  rintro ⟨epochs,turned⟩
  refine (moveOneEnds turned source target fun both => undone both.1).imp fun u turn => ⟨epochs.trans turn.1,?_⟩
  by_cases own : s.slots j = some a ∨ s.slots j = some b
  · refine (turn.2.1 own).same fun k => ?_
    constructor
    · rintro ⟨early | rfl,mine⟩
      · exact .inl ⟨early,mine⟩
      · exact .inr rfl
    · rintro (both | rfl)
      · exact ⟨.inl both.1,both.2⟩
      · exact ⟨.inr rfl,own⟩
  · rw [turn.2.2 own]
    refine turned.same fun k => ?_
    constructor
    · rintro ⟨early | rfl,mine⟩
      · exact ⟨early,mine⟩
      · exact absurd mine own
    · rintro ⟨early,mine⟩
      exact ⟨.inl early,mine⟩

def setslotEach (s : ClusterState) (target : NodeName) (slots : List Slot) : Run ClusterState :=
  slots.foldlM (fun s j => do
    let (s,_) ← setslot s (some j) (.node target)
    .ok s) s

def slotsOf (s : ClusterState) (p : NodePtr) : List Slot := allSlots.filter fun j => s.slots j = some p

/-- One of the imports that end takes a new epoch. -/
def Raises (s : ClusterState) (b : NodePtr) (done : Slot → Prop) : Prop :=
  b = s.myself ∧ Stale s ∧ ∃ k, done k ∧ s.importingSlotsFrom k ≠ none

structure EachTurned (s : ClusterState) (b : NodePtr) (done : Slot → Prop) (t : ClusterState) : Prop where
  turned : Turned s b (fun k => s.slotsKeysCount k = 0) done t
  calm : ¬ Raises s b done → SameEpochs s t
  raised : Raises s b done → s.currentEpoch < t.currentEpoch

theorem memSlots {j : Slot} : j ∈ slotsOf s a ↔ s.slots j = some a := by
  rw [slotsOf,List.mem_filter,decide_eq_true_iff]
  exact and_iff_right (memAll j)

theorem slotsDistinct (s : ClusterState) (a : NodePtr) : (slotsOf s a).Nodup := allDistinct.filter _

theorem eachEnds {faults : Fault → Prop} (table : Agreed s) {target : NodeName} {me : ClusterNode}
    (found : s.heap s.myself = some me) (master : me.flags.slave = false) (known : clusterLookupNode s target = some b)
    (live : (s.heap b).isSome) {slots : List Slot} (distinct : slots.Nodup) :
    Ends faults (EachTurned s b fun k => k ∈ slots) (setslotEach s target slots) := by
  have start : EachTurned s b (fun _ => False) s :=
    ⟨turnedStart table,fun _ => .refl s,by rintro ⟨_,_,_,no,_⟩; contradiction⟩
  have ends := @foldEnds _ _ _ faults (fun s j => do
    let (s,_) ← setslot s (some j) (.node target)
    .ok s) (EachTurned s b) slots distinct (fun done t j _ undone reached => ?_) _ (fun _ _ no => no) _ start
  · simpa only [setslotEach,false_or] using ends
  · obtain ⟨turned,calm,raised⟩ := reached
    obtain ⟨m,there⟩ := Option.isSome_iff_exists.mp ((turned.live t.myself).trans (by rw [turned.myself,found]; rfl))
    have slave : m.flags.slave = false := (turned.slave found there).trans master
    have lookup : clusterLookupNode t target = some b := by rw [clusterLookupNode,turned.entries]; exact known
    have turn := @setslotNodeEnds _ _ _ _ faults turned live (by rw [found]; rfl) _ undone
    simp only [setslot,ClusterState.deref,there,slave,lookup,bind,Except.bind,Bool.false_eq_true,if_false]
    cases done' : setslotNode t j b with
    | error e =>
      rw [done'] at turn
      exact turn
    | ok u =>
      rw [done'] at turn
      obtain ⟨next,quiet,higher⟩ := turn
      refine ⟨next,fun calmer => ?_,fun some => ?_⟩
      · have before : ¬ Raises s b done := by
          rintro ⟨mine,old,k,early,foreign⟩
          exact calmer ⟨mine,old,k,.inl early,foreign⟩
        have epochs := calm before
        refine epochs.trans (quiet ?_)
        rintro ⟨mine,foreign,old⟩
        exact calmer ⟨mine,(staleSame epochs turned.entries turned.myself).mp old,j,.inr rfl,foreign⟩
      · have above : t.currentEpoch ≤ u.currentEpoch := by
          by_cases now : b = s.myself ∧ s.importingSlotsFrom j ≠ none ∧ Stale t
          · exact le_of_lt (higher now)
          · exact le_of_eq (quiet now).current.symm
        by_cases before : Raises s b done
        · exact lt_of_lt_of_le (raised before) above
        · have epochs := calm before
          obtain ⟨mine,old,k,early | rfl,foreign⟩ := some
          · exact absurd ⟨mine,old,k,early,foreign⟩ before
          · rw [← epochs.current]
            exact higher ⟨mine,foreign,(staleSame epochs turned.entries turned.myself).mpr old⟩

theorem eachReplica {me : ClusterNode} (found : s.heap s.myself = some me) (replica : me.flags.slave = true)
    (target : NodeName) (slots : List Slot) : setslotEach s target slots = .ok s := by
  induction slots with
  | nil => rfl
  | cons j rest ih =>
    simp only [setslotEach,List.foldlM_cons,setslot,ClusterState.deref,found,replica,bind,Except.bind,if_true]
    exact ih

end

/-- What a header carries for other nodes to rebind slots by. -/
structure Announcement where
  currentEpoch : Nat
  configEpoch : Nat
  myslots : Bitmap 16384

def clusterBuildMessageHdr (s : ClusterState) : Run Announcement := do
  let me ← s.deref s.myself
  let master ← match me.flags.slave, me.slaveof with
    | true, some p => s.deref p
    | _, _ => .ok me
  .ok ⟨s.currentEpoch,master.configEpoch,master.slots⟩

structure SameOutcome (t u : ClusterState) : Prop where
  table : SameTable t u
  migrating : u.migratingSlotsTo = t.migratingSlotsTo
  importing : u.importingSlotsFrom = t.importingSlotsFrom
  currentEpoch : u.currentEpoch = t.currentEpoch
  configEpoch : epochOf u u.myself = epochOf t t.myself
  pong : clusterBuildMessageHdr u = clusterBuildMessageHdr t

/-- SETALLSLOT NODE and the commands for the slots of the source end in the same way. -/
def BulkAgrees (s : ClusterState) (source target : NodeName) : Prop :=
  ∃ a t reply u, clusterLookupNode s source = some a ∧ setallslot s .node source target = .ok (t,reply) ∧
    setslotEach s target (slotsOf s a) = .ok u ∧ SameOutcome t u

/-- No marker is set that only the bulk command closes, and no import would take a new epoch. -/
structure Plain (s : ClusterState) (a b : NodePtr) : Prop where
  source : ∀ j, s.slots j = some a → s.migratingSlotsTo j ≠ none → s.slotsKeysCount j = 0
  target : ∀ j, s.slots j = some b → s.slots j ≠ some a → s.migratingSlotsTo j = none
  imports : ∀ j, s.slots j = some b → s.slots j ≠ some a → b = s.myself → s.importingSlotsFrom j = none
  epoch : ¬ Raises s b fun j => s.slots j = some a

def Replica (s : ClusterState) : Prop := ∃ me, s.heap s.myself = some me ∧ me.flags.slave = true

theorem outcomeRefl (s : ClusterState) : SameOutcome s s := ⟨⟨rfl,fun _ => rfl⟩,rfl,rfl,rfl,rfl,rfl⟩

section
variable {s t u : ClusterState} {a b : NodePtr}

theorem pongMaster {me m : ClusterNode} (table : SameTable t u) (left : t.heap t.myself = some me)
    (right : u.heap u.myself = some m) (myself : u.myself = t.myself) (master : me.flags.slave = false)
    (same : m.flags.slave = false) (current : u.currentEpoch = t.currentEpoch)
    (config : epochOf u u.myself = epochOf t t.myself) : clusterBuildMessageHdr u = clusterBuildMessageHdr t := by
  have slots := table.bitmaps t.myself
  rw [myself] at right
  rw [left,right,Option.map_some,Option.map_some,Option.some.injEq] at slots
  have epoch : m.configEpoch = me.configEpoch := by
    rw [epochOf,epochOf,myself,left,right] at config
    exact config
  simp only [clusterBuildMessageHdr,ClusterState.deref,myself,left,right,bind,Except.bind,master,same,current,slots,epoch]

theorem outcomePlain {me : ClusterNode} (found : s.heap s.myself = some me)
    (master : me.flags.slave = false) (epochs : SameEpochs s t)
    (bulk : Turned s b (fun _ => True) (fun k => s.slots k = some a ∨ s.slots k = some b) t)
    (each : EachTurned s b (fun k => s.slots k = some a) u) : SameOutcome t u ↔ Plain s a b := by
  have owners : u.slots = t.slots := by
    funext k
    by_cases mine : s.slots k = some a
    · rw [each.turned.moved k mine,bulk.moved k (.inl mine)]
    · rw [each.turned.kept k mine]
      by_cases there : s.slots k = some b
      · rw [there,bulk.moved k (.inr there)]
      · rw [bulk.kept k fun either => either.elim mine there]
  constructor
  · intro same
    refine ⟨fun j mine foreign => ?_,fun j there mine => ?_,fun j there mine own => ?_,fun raises => ?_⟩
    · by_contra keys
      refine foreign ?_
      rw [← each.turned.carried j fun both => keys both.2,same.migrating]
      exact bulk.dropped j (.inl mine) trivial
    · rw [← each.turned.carried j fun both => mine both.1,same.migrating]
      exact bulk.dropped j (.inr there) trivial
    · rw [← each.turned.left j fun both => mine both.1,same.importing]
      exact bulk.closed j (.inr there) own
    · have above := each.raised raises
      rw [same.currentEpoch,epochs.current] at above
      exact absurd above (lt_irrefl _)
  · intro plain
    have sameTable := ownersSame bulk.table each.turned.table
      (fun p => (each.turned.live p).trans (bulk.live p).symm) owners
    have calm := each.calm plain.epoch
    have myself := each.turned.myself.trans bulk.myself.symm
    have current := calm.current.trans epochs.current.symm
    have config : epochOf u u.myself = epochOf t t.myself := by
      rw [myself,calm.config,epochs.config]
    obtain ⟨m,left⟩ := Option.isSome_iff_exists.mp ((bulk.live t.myself).trans (by rw [bulk.myself,found]; rfl))
    obtain ⟨k,right⟩ := Option.isSome_iff_exists.mp
      ((each.turned.live u.myself).trans (by rw [each.turned.myself,found]; rfl))
    refine ⟨sameTable,funext fun j => ?_,funext fun j => ?_,current,config,pongMaster sameTable left right myself
      ((bulk.slave found left).trans master) ((each.turned.slave found right).trans master) current config⟩
    · by_cases mine : s.slots j = some a
      · rw [bulk.dropped j (.inl mine) trivial]
        by_cases keys : s.slotsKeysCount j = 0
        · exact each.turned.dropped j mine keys
        · rw [each.turned.carried j fun both => keys both.2]
          by_contra foreign
          exact keys (plain.source j mine foreign)
      · rw [each.turned.carried j fun both => mine both.1]
        by_cases there : s.slots j = some b
        · rw [bulk.dropped j (.inr there) trivial,plain.target j there mine]
        · rw [bulk.carried j fun both => both.1.elim mine there]
    · by_cases mine : s.slots j = some a
      · by_cases own : b = s.myself
        · rw [bulk.closed j (.inl mine) own,each.turned.closed j mine own]
        · rw [bulk.left j fun both => own both.2,each.turned.left j fun both => own both.2]
      · rw [each.turned.left j fun both => mine both.1]
        by_cases there : s.slots j = some b ∧ b = s.myself
        · rw [bulk.closed j (.inr there.1) there.2,plain.imports j there.1 mine there.2]
        · rw [bulk.left j fun both => both.1.elim mine fun own => there ⟨own,both.2⟩]

theorem agreesMaster {source target : NodeName} (table : Agreed s) (listed : Listed s)
    (first : clusterLookupNode s source = some a) (second : clusterLookupNode s target = some b)
    (master : ¬ Replica s) : BulkAgrees s source target ↔ Plain s a b := by
  obtain ⟨me,found,_⟩ := listed.me
  obtain ⟨n,hasSource,_⟩ := listed.lookup first
  obtain ⟨m,hasTarget,_⟩ := listed.lookup second
  have role : me.flags.slave = false := Bool.eq_false_iff.mpr fun replica => master ⟨me,found,replica⟩
  have command : setallslot s .node source target = (do
      let t ← sweep (moveOne a b) s
      .ok (t,.ok)) := by
    simp only [setallslot,setallslotTo,ClusterState.deref,found,role,first,second,bind,Except.bind,
      Bool.false_eq_true,if_false]
  obtain ⟨t,bulkDone,epochs,bulk⟩ := endsTotal.mp (@bulkEnds s a b _ table (by rw [hasSource]; rfl)
    (by rw [hasTarget]; rfl))
  have ends := @eachEnds s b (fun _ => False) table target me found role second (by rw [hasTarget]; rfl) _
    (slotsDistinct s a)
  obtain ⟨u,eachDone,each⟩ := endsTotal.mp ends
  have each : EachTurned s b (fun k => s.slots k = some a) u := by simpa only [memSlots] using each
  rw [← outcomePlain found role epochs bulk each]
  constructor
  · rintro ⟨a',t',reply,u',first',command',each',same⟩
    rw [first,Option.some.injEq] at first'
    subst first'
    rw [command,bulkDone] at command'
    rw [eachDone] at each'
    cases command'
    cases each'
    exact same
  · intro same
    exact ⟨a,t,.ok,u,first,by rw [command,bulkDone]; rfl,eachDone,same⟩

/-- SETALLSLOT NODE agrees with the commands for the single slots exactly when this node refuses
both as a replica, or no marker and no epoch tells them apart. -/
theorem bulkAgrees {source target : NodeName} (table : Agreed s) (listed : Listed s)
    (first : clusterLookupNode s source = some a) (second : clusterLookupNode s target = some b) :
    BulkAgrees s source target ↔ Replica s ∨ Plain s a b := by
  by_cases replica : Replica s
  · obtain ⟨me,found,role⟩ := replica
    refine iff_of_true ⟨a,s,replicaReply,s,first,?_,eachReplica found role target _,outcomeRefl s⟩
      (.inl ⟨me,found,role⟩)
    simp only [setallslot,ClusterState.deref,found,role,bind,Except.bind,if_true]
  · rw [agreesMaster table listed first second replica,or_iff_right replica]

end

/-- Node 1 owns slot 0, and this node, node 0 with the given epoch, is importing it. -/
def importer (epoch : Nat) : ClusterState :=
  let s := clusterInit 0 [97]
  { s with
    currentEpoch := epoch
    nodes := ⟨[⟨[97],0⟩,⟨[98],1⟩],by decide⟩
    heap := fun
      | 0 => some { createClusterNode [97] { NodeFlags.none with myself := true, master := true } with
        configEpoch := epoch }
      | 1 => some { createClusterNode [98] { NodeFlags.none with master := true } with
        slots := bitmapSetBit emptyBitmap 0
        numslots := 1 }
      | _ => none
    slots := Function.update s.slots 0 (some 1)
    importingSlotsFrom := Function.update s.importingSlotsFrom 0 (some 1) }

theorem importerAgreed (epoch : Nat) : Agreed (importer epoch) := by
  refine ⟨fun {p n} found j => ?_,fun {p n} found => ?_,fun {j p} owner => ?_⟩
  · match p with
    | 0 | 1 =>
      cases found
      by_cases here : j = 0
      · simp [importer,here,createClusterNode]
      · simp [importer,here,createClusterNode,clusterInit]
  · match p with
    | 0 =>
      cases found
      simp [createClusterNode,bitsEmpty]
    | 1 =>
      cases found
      simp [bitsSet,bitsEmpty]
  · by_cases here : j = 0
    · rw [here] at owner
      cases owner
      rfl
    · simp [importer,here,clusterInit] at owner

theorem importerListed (epoch : Nat) : Listed (importer epoch) := by
  refine ⟨?_,fun {p n} found => ?_,⟨_,rfl,rfl⟩⟩
  · simp [importer,createClusterNode]
  · have known : p = 0 ∨ p = 1 := by
      by_contra other
      rw [not_or] at other
      simp [importer,other] at found
    rcases known with rfl | rfl
    · cases found
      simp [importer,createClusterNode]
    · cases found
      simp [importer,createClusterNode]

theorem importerMaster (epoch : Nat) : ¬ Replica (importer epoch) := by
  rintro ⟨me,found,replica⟩
  obtain rfl := Option.some.inj found
  exact Bool.noConfusion replica

/-- An importer that holds the highest epoch. -/
theorem bulkAgreesShown : BulkAgrees (importer 1) [98] [97] := by
  refine (bulkAgrees (importerAgreed 1) (importerListed 1) rfl rfl).mpr (.inr ⟨?_,?_,?_,?_⟩)
  · exact fun _ _ foreign => absurd rfl foreign
  · exact fun _ _ _ => rfl
  · intro j mine
    by_cases here : j = 0 <;> simp [importer,here,clusterInit] at mine
  · rintro ⟨_,zero | lower,_⟩
    · exact absurd zero (Nat.succ_ne_zero 0)
    · exact lower rfl

/-- An importer without an epoch: the single commands would take epoch 1. -/
theorem importSkipsEpoch : Agreed (importer 0) ∧ Listed (importer 0) ∧ clusterLookupNode (importer 0) [98] = some 1 ∧
    clusterLookupNode (importer 0) [97] = some 0 ∧ ¬ BulkAgrees (importer 0) [98] [97] := by
  refine ⟨importerAgreed 0,importerListed 0,rfl,rfl,fun agrees => ?_⟩
  have plain := (agreesMaster (importerAgreed 0) (importerListed 0) rfl rfl (importerMaster 0)).mp agrees
  exact plain.epoch ⟨rfl,.inl rfl,0,by simp [importer],by simp [importer]⟩

end HpuCache.BulkTransfer
