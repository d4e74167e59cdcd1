import HpuCache.NodeTable

/-! The three copies of slot ownership (the array of owners, the bitmap of every node and
its counter) kept in step by the two operations on one slot. -/
namespace HpuCache.SlotTable
open BitArray FaultRun KeyedDict KeySlot NodeTable

structure Agreed (s : ClusterState) : Prop where
  agree : ∀ {p n}, s.heap p = some n → ∀ j, s.slots j = some p ↔ bitmapTestBit n.slots j = true
  counted : ∀ {p n}, s.heap p = some n → n.numslots = (bitsOf n.slots).card
  owned : ∀ {j p}, s.slots j = some p → (s.heap p).isSome

/-- The dictionary holds the live records under their names, and this node is one of them. -/
structure Listed (s : ClusterState) : Prop where
  live : ∀ e ∈ s.nodes.entries, ∃ n, s.heap e.node = some n ∧ n.name = e.name
  listed : ∀ {p n}, s.heap p = some n → ⟨n.name,p⟩ ∈ s.nodes.entries
  me : ∃ n, s.heap s.myself = some n ∧ n.flags.handshake = false

theorem Listed.lookup {s : ClusterState} (listed : Listed s) {name : NodeName} {p : NodePtr}
    (found : clusterLookupNode s name = some p) : ∃ n, s.heap p = some n ∧ n.name = name := by
  simp only [clusterLookupNode,Option.map_eq_some_iff] at found
  obtain ⟨e,entry,rfl⟩ := found
  obtain ⟨inside,rfl⟩ := Dict.findMem entry
  exact listed.live e inside

theorem agreedEmpty {s : ClusterState} (free : ∀ j, s.slots j = none)
    (blank : ∀ {p n}, s.heap p = some n → n.slots = emptyBitmap ∧ n.numslots = 0) : Agreed s := by
  refine ⟨fun found j => ?_,fun found => ?_,fun {j p} owner => ?_⟩
  · simp [free,(blank found).1]
  · simp [blank found,bitsEmpty]
  · simp [free] at owner

/-- A record without what a change of owner writes. -/
def unbound (n : ClusterNode) : ClusterNode :=
  { n with slots := emptyBitmap, numslots := 0, flags := { n.flags with migrateTo := false } }

theorem ofUnbound {α : Type} {n m : ClusterNode} (same : unbound m = unbound n) (field : ClusterNode → α) :
    field (unbound m) = field (unbound n) := by rw [same]

def SameNodes (s t : ClusterState) : Prop := ∀ p, (t.heap p).map unbound = (s.heap p).map unbound

/-- The owners are new; nothing else is, but for what follows from the owners. -/
structure Assigned (s t : ClusterState) (owner : Slot → Option NodePtr) : Prop where
  rest : t = { s with slots := owner, heap := t.heap }
  nodes : SameNodes s t
  table : Agreed t

theorem SameNodes.refl (s : ClusterState) : SameNodes s s := fun _ => rfl

theorem SameNodes.trans {s t u : ClusterState} (first : SameNodes s t) (second : SameNodes t u) : SameNodes s u :=
  fun p => (second p).trans (first p)

theorem SameNodes.symm {s t : ClusterState} (same : SameNodes s t) : SameNodes t s := fun p => (same p).symm

theorem SameNodes.node {s t : ClusterState} (same : SameNodes s t) {p : NodePtr} {n : ClusterNode}
    (found : s.heap p = some n) : ∃ m, t.heap p = some m ∧ unbound m = unbound n := by
  have mapped := same p
  rw [found,Option.map_some,Option.map_eq_some_iff] at mapped
  exact mapped

theorem SameNodes.live {s t : ClusterState} (same : SameNodes s t) (p : NodePtr) :
    (t.heap p).isSome = (s.heap p).isSome := by
  have mapped := congrArg Option.isSome (same p)
  simpa only [Option.isSome_map] using mapped

theorem Assigned.refl {s : ClusterState} (table : Agreed s) : Assigned s s s.slots := ⟨rfl,.refl s,table⟩

theorem Assigned.slots {s t : ClusterState} {owner} (assigned : Assigned s t owner) : t.slots = owner := by
  rw [assigned.rest]

theorem Assigned.trans {s t u : ClusterState} {owner last} (first : Assigned s t owner) (second : Assigned t u last) :
    Assigned s u last := by
  refine ⟨?_,first.nodes.trans second.nodes,second.table⟩
  have rest := second.rest
  rw [first.rest] at rest
  exact rest

theorem Assigned.keys {s t : ClusterState} {owner} (assigned : Assigned s t owner) (keys : Slot → Nat) :
    Assigned (s.setKeys keys) (t.setKeys keys) owner := by
  refine ⟨?_,assigned.nodes,assigned.table.agree,assigned.table.counted,assigned.table.owned⟩
  rw [ClusterState.setKeys,assigned.rest]
  rfl

theorem storeTable {s : ClusterState} {p : NodePtr} {n m : ClusterNode} {owner : Slot → Option NodePtr}
    (table : Agreed s) (found : s.heap p = some n) (same : unbound m = unbound n)
    (mine : ∀ j, owner j = some p ↔ bitmapTestBit m.slots j = true) (count : m.numslots = (bitsOf m.slots).card)
    (others : ∀ j q, q ≠ p → (owner j = some q ↔ s.slots j = some q)) :
    Assigned s { s with heap := Function.update s.heap p (some m), slots := owner } owner := by
  refine ⟨rfl,fun q => ?_,?_,?_,?_⟩
  · by_cases here : q = p
    · subst here
      simp [found,same]
    · simp [Function.update_of_ne here]
  · intro q k at_ j
    by_cases here : q = p
    · subst here
      simp only [Function.update_self,Option.some.injEq] at at_
      exact at_ ▸ mine j
    · simp only [Function.update_of_ne here] at at_
      exact (others j q here).trans (table.agree at_ j)
  · intro q k at_
    by_cases here : q = p
    · subst here
      simp only [Function.update_self,Option.some.injEq] at at_
      exact at_ ▸ count
    · simp only [Function.update_of_ne here] at at_
      exact table.counted at_
  · intro j q assigned
    by_cases here : q = p
    · subst here
      simp
    · simpa only [Function.update_of_ne here] using table.owned ((others j q here).mp assigned)

/-- The same owners and the same bitmap in every record. -/
structure SameTable (t u : ClusterState) : Prop where
  owners : u.slots = t.slots
  bitmaps : ∀ p, (u.heap p).map ClusterNode.slots = (t.heap p).map ClusterNode.slots

/-- The bitmaps follow from the owners. -/
theorem ownersSame {t u : ClusterState} (left : Agreed t) (right : Agreed u)
    (live : ∀ p, (u.heap p).isSome = (t.heap p).isSome) (owners : u.slots = t.slots) : SameTable t u := by
  refine ⟨owners,fun p => ?_⟩
  cases found : t.heap p with
  | none =>
    have gone : (u.heap p).isSome = false := by rw [live,found]; rfl
    rw [Option.isSome_eq_false_iff,Option.isNone_iff_eq_none] at gone
    rw [gone]
  | some n =>
    obtain ⟨m,there⟩ := Option.isSome_iff_exists.mp (show (u.heap p).isSome by rw [live,found]; rfl)
    rw [there,Option.map_some,Option.map_some,Option.some.injEq]
    refine bitmapExt (by decide) fun j => ?_
    rw [Bool.eq_iff_iff,← left.agree found j,← right.agree there j,owners]

theorem agreedRecord {s : ClusterState} (table : Agreed s) {p : NodePtr} {n m : ClusterNode} (found : s.heap p = some n)
    (slots : m.slots = n.slots) (numslots : m.numslots = n.numslots) : Agreed (s.store p m) := by
  refine ⟨fun {q k} at_ j => ?_,fun {q k} at_ => ?_,fun {j q} owner => ?_⟩
  · by_cases here : q = p
    · subst here
      simp only [storeHeap,Function.update_self,Option.some.injEq] at at_
      rw [← at_,slots]
      exact table.agree found j
    · simp only [storeHeap,Function.update_of_ne here] at at_
      exact table.agree at_ j
  · by_cases here : q = p
    · subst here
      simp only [storeHeap,Function.update_self,Option.some.injEq] at at_
      rw [← at_,slots,numslots]
      exact table.counted found
    · simp only [storeHeap,Function.update_of_ne here] at at_
      exact table.counted at_
  · by_cases here : q = p
    · subst here
      simp
    · simpa only [storeHeap,Function.update_of_ne here] using table.owned owner

/-- A new record that owns no slot. -/
theorem agreedNew {s : ClusterState} (table : Agreed s) {p : NodePtr} {n : ClusterNode} (free : s.heap p = none)
    (blank : n.slots = emptyBitmap) (unowned : n.numslots = 0) : Agreed (s.store p n) := by
  refine ⟨fun {q k} here j => ?_,fun {q k} here => ?_,fun {j q} owner => ?_⟩
  · by_cases same : q = p
    · subst same
      simp only [storeHeap,Function.update_self,Option.some.injEq] at here
      rw [← here,blank,testEmpty]
      refine iff_of_false (fun owner => ?_) (by simp)
      have live := table.owned owner
      rw [free] at live
      contradiction
    · simp only [storeHeap,Function.update_of_ne same] at here
      exact table.agree here j
  · by_cases same : q = p
    · subst same
      simp only [storeHeap,Function.update_self,Option.some.injEq] at here
      rw [← here,blank,unowned,bitsEmpty]
      rfl
    · simp only [storeHeap,Function.update_of_ne same] at here
      exact table.counted here
  · have live := table.owned owner
    by_cases same : q = p
    · subst same
      simp
    · simpa only [storeHeap,Function.update_of_ne same] using live

/-- A record whose bit of one slot is new, with the counter that goes with it. -/
structure Rebit (n m : ClusterNode) (slots : Bitmap 16384) (numslots : Int) : Prop where
  slots : m.slots = slots
  numslots : m.numslots = numslots
  rest : unbound m = unbound n

theorem setSlotBit {s : ClusterState} {p : NodePtr} {n : ClusterNode} {slot : Slot} (found : s.heap p = some n)
    (absent : bitmapTestBit n.slots slot = false) :
    ∃ m, clusterNodeSetSlotBit s p slot = .ok (s.store p m) ∧
      Rebit n m (bitmapSetBit n.slots slot) (n.numslots + 1) := by
  simp only [clusterNodeSetSlotBit,ClusterState.deref,found,absent,bind,Except.bind,Bool.false_eq_true,if_false]
  split
  · rw [storeTwice]
    exact ⟨_,rfl,rfl,rfl,rfl⟩
  · exact ⟨_,rfl,rfl,rfl,rfl⟩

theorem clearSlotBit {s : ClusterState} {p : NodePtr} {n : ClusterNode} {slot : Slot} (found : s.heap p = some n)
    (present : bitmapTestBit n.slots slot = true) :
    ∃ m, clusterNodeClearSlotBit s p slot = .ok (s.store p m,true) ∧
      Rebit n m (bitmapClearBit n.slots slot) (n.numslots - 1) := by
  simp only [clusterNodeClearSlotBit,ClusterState.deref,found,present,bind,Except.bind,if_true]
  exact ⟨_,rfl,rfl,rfl,rfl⟩

section
variable {faults : Fault → Prop} {s : ClusterState} {slot : Slot}

theorem delSlotEnds (table : Agreed s) (slot : Slot) :
    Ends faults (fun r => Assigned s r.1 (Function.update s.slots slot none) ∧ r.2 = (s.slots slot).isSome)
      (clusterDelSlot s slot) := by
  cases owner : s.slots slot with
  | none =>
    have same : Function.update s.slots slot none = s.slots := by rw [← owner,Function.update_eq_self]
    simp only [clusterDelSlot,owner,endsOk,same]
    exact ⟨.refl table,rfl⟩
  | some p =>
    obtain ⟨n,found⟩ := Option.isSome_iff_exists.mp (table.owned owner)
    have present : bitmapTestBit n.slots slot = true := (table.agree found slot).mp owner
    obtain ⟨m,cleared,bits⟩ := clearSlotBit found present
    have count := table.counted found
    have fewer := cardClear present
    simp only [clusterDelSlot,owner,cleared,bind,Except.bind,if_true,endsOk,Option.isSome_some,and_true]
    refine storeTable table found bits.rest (fun j => ?_) ?_ (fun j q other => ?_)
    · by_cases here : j = slot
      · subst here
        simp [bits.slots]
      · simp [here,table.agree found j,bits.slots]
    · rw [bits.slots,bits.numslots]
      omega
    · by_cases here : j = slot
      · subst here
        simp [owner,Ne.symm other]
      · simp [Function.update_of_ne here]

theorem addSlotEnds (table : Agreed s) {p : NodePtr} (live : (s.heap p).isSome) (slot : Slot) :
    Ends faults (fun r => Assigned s r.1 (Function.update s.slots slot (some ((s.slots slot).getD p))) ∧
      r.2 = (s.slots slot).isNone) (clusterAddSlot s p slot) := by
  cases owner : s.slots slot with
  | some q =>
    have same : Function.update s.slots slot (some q) = s.slots := by rw [← owner,Function.update_eq_self]
    simp only [clusterAddSlot,owner,Option.isSome_some,if_true,endsOk,Option.getD_some,same]
    exact ⟨.refl table,rfl⟩
  | none =>
    obtain ⟨n,found⟩ := Option.isSome_iff_exists.mp live
    have absent : bitmapTestBit n.slots slot = false := by
      rw [Bool.eq_false_iff,ne_eq,← table.agree found slot,owner]
      simp
    obtain ⟨m,done,bits⟩ := setSlotBit found absent
    have count := table.counted found
    have more := cardSet absent
    simp only [clusterAddSlot,owner,done,bind,Except.bind,Option.isSome_none,Bool.false_eq_true,if_false,endsOk,
      Option.getD_none,Option.isNone_none,and_true]
    refine storeTable table found bits.rest (fun j => ?_) ?_ (fun j q other => ?_)
    · by_cases here : j = slot
      · subst here
        simp [bits.slots]
      · simp [here,table.agree found j,bits.slots]
    · rw [bits.slots,bits.numslots]
      omega
    · by_cases here : j = slot
      · subst here
        simp [owner,Ne.symm other]
      · simp [Function.update_of_ne here]

theorem reassignEnds (table : Agreed s) {p : NodePtr} (live : (s.heap p).isSome) (slot : Slot) :
    Ends faults (fun t => Assigned s t (Function.update s.slots slot (some p))) (reassignSlot s p slot) := by
  refine (delSlotEnds table slot).bind fun freed first => ?_
  have free : freed.1.slots slot = none := by rw [first.1.slots,Function.update_self]
  refine (addSlotEnds first.1.table ((first.1.nodes.live p).trans live) slot).bind fun bound second => ?_
  have owner := first.1.trans second.1
  rw [free,Option.getD_none,first.1.slots,Function.update_idem] at owner
  exact owner

end

end HpuCache.SlotTable
