import HpuCache.NodePackets

/-! What the operations on nodes keep: the agreement on slots, the dictionary's view of the
records, and the name of every record that is not touched by a deletion or a new name. -/
namespace HpuCache.NodeFrames
open BitArray FaultRun KeyedDict KeySlot NodeTable SlotTable SlotUpdate SlotCommands NodeCommands NodePackets

structure Moves (touched : NodePtr → Prop) (s t : ClusterState) : Prop where
  table : Agreed t
  listed : Listed t
  myself : t.myself = s.myself
  related : t.relatedIns = s.relatedIns
  names : ∀ {p n}, ¬ touched p → s.heap p = some n → ∃ m, t.heap p = some m ∧ m.name = n.name

/-- Every fault but the failed assertion of `clusterDelSlot`. -/
def Admitted (e : Fault) : Prop := e ≠ .delSlotAssert

/-- The run keeps the node table, or ends with another fault than the assertion. -/
abbrev Keeps (touched : NodePtr → Prop) (s : ClusterState) (run : Run ClusterState) : Prop :=
  Ends Admitted (Moves touched s) run

section
variable {touched : NodePtr → Prop} {s t u : ClusterState} {p : NodePtr} {n m : ClusterNode}

theorem Moves.refl (table : Agreed s) (listed : Listed s) : Moves touched s s :=
  ⟨table,listed,rfl,rfl,fun _ found => ⟨_,found,rfl⟩⟩

theorem Moves.trans (first : Moves touched s t) (second : Moves touched t u) : Moves touched s u := by
  refine ⟨second.table,second.listed,second.myself.trans first.myself,second.related.trans first.related,
    fun {p n} free found => ?_⟩
  obtain ⟨m,there,same⟩ := first.names free found
  obtain ⟨k,later,alike⟩ := second.names free there
  exact ⟨k,later,alike.trans same⟩

theorem Moves.widen {wider : NodePtr → Prop} (moves : Moves touched s t) (more : ∀ q, touched q → wider q) :
    Moves wider s t :=
  ⟨moves.table,moves.listed,moves.myself,moves.related,fun free => moves.names fun here => free (more _ here)⟩

theorem keepsNext {run : Run ClusterState} {next : ClusterState → Run ClusterState} (first : Keeps touched s run)
    (after : ∀ t, Moves touched s t → Keeps touched t (next t)) : Keeps touched s (run >>= next) :=
  first.bind fun t moves => (after t moves).imp fun _ more => moves.trans more

theorem keepsReply {run : Run ClusterState} (keeps : Keeps touched s run) (reply : Reply) :
    Ends Admitted (fun r : ClusterState × Reply => Moves touched s r.1) (do
      let t ← run
      .ok (t,reply)) := keeps.bind fun _ moves => moves

theorem derefEnds (s : ClusterState) (p : NodePtr) : Ends Admitted (fun n => s.heap p = some n) (s.deref p) := by
  cases found : s.heap p with
  | none => simp [ClusterState.deref,found,Admitted]
  | some n => simp [ClusterState.deref,found]

theorem keepsDeref {next : ClusterNode → Run ClusterState} (p : NodePtr)
    (after : ∀ n, s.heap p = some n → Keeps touched s (next n)) : Keeps touched s (s.deref p >>= next) :=
  (derefEnds s p).bind after

/-- A loop whose body keeps the node table keeps it. -/
theorem keepsFold {ι : Type} {body : ClusterState → ι → Run ClusterState} {items : List ι} (table : Agreed s)
    (listed : Listed s) (kept : ∀ t i, Moves touched s t → Keeps touched t (body t i)) :
    Keeps touched s (items.foldlM body s) :=
  foldKept (fun t i _ moves => (kept t i moves).imp fun _ more => moves.trans more) (.refl table listed)

theorem keepsSweep {body : ClusterState → Slot → Run ClusterState} (table : Agreed s) (listed : Listed s)
    (kept : ∀ t j, Moves touched s t → Keeps touched t (body t j)) : Keeps touched s (sweep body s) :=
  @sweepEnds _ _ Admitted _ body (fun _ => Moves touched s)
    (fun _ t j _ moves => (kept t j moves).imp fun _ more => moves.trans more) s (.refl table listed)

theorem quietMoves (table : Agreed s) (listed : Listed s) (myself : t.myself = s.myself) (nodes : t.nodes = s.nodes)
    (heap : t.heap = s.heap) (slots : t.slots = s.slots) (related : t.relatedIns = s.relatedIns) :
      Moves touched s t := by
  refine ⟨⟨?_,?_,?_⟩,⟨?_,?_,?_⟩,myself,related,?_⟩
  · rw [heap,slots]
    exact table.agree
  · rw [heap]
    exact table.counted
  · rw [heap,slots]
    exact table.owned
  · rw [heap,nodes]
    exact listed.live
  · rw [heap,nodes]
    exact listed.listed
  · rw [heap,myself]
    exact listed.me
  · rw [heap]
    exact fun _ found => ⟨_,found,rfl⟩

/-- A new version of a record that keeps its name and its slots and starts no handshake. -/
structure Minor (n m : ClusterNode) : Prop where
  name : m.name = n.name
  handshake : n.flags.handshake = false → m.flags.handshake = false
  slots : m.slots = n.slots
  numslots : m.numslots = n.numslots

theorem storeMoves (table : Agreed s) (listed : Listed s) (found : s.heap p = some n) (minor : Minor n m) :
    Moves touched s (s.store p m) := by
  have read {q : NodePtr} {k : ClusterNode} (here : s.heap q = some k) :
      ∃ l, (s.store p m).heap q = some l ∧ l.name = k.name ∧
        (k.flags.handshake = false → l.flags.handshake = false) := by
    by_cases same : q = p
    · subst same
      rw [found,Option.some.injEq] at here
      subst here
      exact ⟨m,by simp,minor.name,minor.handshake⟩
    · exact ⟨k,by simp [same,here],rfl,id⟩
  refine ⟨agreedRecord table found minor.slots minor.numslots,⟨fun e inside => ?_,fun {q k} there => ?_,?_⟩,rfl,rfl,?_⟩
  · obtain ⟨k,here,name⟩ := listed.live e inside
    obtain ⟨l,there,same,_⟩ := read here
    exact ⟨l,there,same.trans name⟩
  · by_cases same : q = p
    · subst same
      simp only [storeHeap,Function.update_self,Option.some.injEq] at there
      rw [← there,minor.name]
      exact listed.listed found
    · simp only [storeHeap,Function.update_of_ne same] at there
      exact listed.listed there
  · obtain ⟨k,here,calm⟩ := listed.me
    obtain ⟨l,there,_,kept⟩ := read here
    exact ⟨l,there,kept calm⟩
  · intro q k _ here
    obtain ⟨l,there,same,_⟩ := read here
    exact ⟨l,there,same⟩

theorem modifyEnds (table : Agreed s) (listed : Listed s) (p : NodePtr) {change : ClusterNode → ClusterNode}
    (minor : ∀ n, Minor n (change n)) :
    Ends Admitted (fun t => Moves touched s t ∧ t.slots = s.slots) (s.modify p change) :=
  (derefEnds s p).bind fun _ found => ⟨storeMoves table listed found (minor _),rfl⟩

theorem assignedMoves {owner} (listed : Listed s) (assigned : Assigned s t owner) : Moves touched s t := by
  have rest := assigned.rest
  have nodes : t.nodes = s.nodes := by rw [rest]
  have myself : t.myself = s.myself := by rw [rest]
  have read {q : NodePtr} {k : ClusterNode} (here : s.heap q = some k) :
      ∃ l, t.heap q = some l ∧ l.name = k.name ∧ l.flags.handshake = k.flags.handshake := by
    obtain ⟨l,there,alike⟩ := assigned.nodes.node here
    have name := congrArg ClusterNode.name alike
    have handshake := congrArg (fun n : ClusterNode => n.flags.handshake) alike
    exact ⟨l,there,name,handshake⟩
  refine ⟨assigned.table,⟨fun e inside => ?_,fun {q k} there => ?_,?_⟩,myself,by rw [rest],fun _ here => ?_⟩
  · obtain ⟨k,here,name⟩ := listed.live e (nodes ▸ inside)
    obtain ⟨l,there,same,_⟩ := read here
    exact ⟨l,there,same.trans name⟩
  · obtain ⟨l,here,alike⟩ := assigned.nodes.symm.node there
    have name := congrArg ClusterNode.name alike
    rw [nodes,← show l.name = k.name from name]
    exact listed.listed here
  · obtain ⟨k,here,calm⟩ := listed.me
    obtain ⟨l,there,_,same⟩ := read here
    exact ⟨l,myself ▸ there,same.trans calm⟩
  · obtain ⟨l,there,same,_⟩ := read here
    exact ⟨l,there,same⟩

theorem removeSlaveEnds (table : Agreed s) (listed : Listed s) (master slave : NodePtr) :
    Ends Admitted (fun t => Moves touched s t ∧ t.slots = s.slots) (clusterNodeRemoveSlave s master slave) := by
  refine (derefEnds s master).bind fun m found => ?_
  split
  · refine ⟨storeMoves table listed found ⟨rfl,fun calm => ?_,rfl,rfl⟩,rfl⟩
    dsimp only
    split
    · exact calm
    · exact calm
  · exact ⟨.refl table listed,rfl⟩

theorem addSlaveKeeps (table : Agreed s) (listed : Listed s) (master slave : NodePtr) :
    Keeps touched s (clusterNodeAddSlave s master slave) := by
  refine keepsDeref master fun m found => ?_
  split
  · exact .refl table listed
  · exact storeMoves table listed found ⟨rfl,id,rfl,rfl⟩

theorem modifyKeeps (table : Agreed s) (listed : Listed s) (p : NodePtr) {change : ClusterNode → ClusterNode}
    (minor : ∀ n, Minor n (change n)) : Keeps touched s (s.modify p change) :=
  (modifyEnds table listed p minor).imp fun _ => And.left

theorem leaveMasterEnds (table : Agreed s) (listed : Listed s) (p : NodePtr) (n : ClusterNode) :
    Ends Admitted (fun t => Moves touched s t ∧ t.slots = s.slots) (leaveMaster s p n) := by
  rw [leaveMaster]
  split
  · exact removeSlaveEnds table listed _ _
  · exact ⟨.refl table listed,rfl⟩

theorem setNodeAsMasterKeeps (table : Agreed s) (listed : Listed s) (p : NodePtr) :
    Keeps touched s (clusterSetNodeAsMaster s p) := by
  refine keepsDeref p fun n found => ?_
  split
  · exact .refl table listed
  · refine keepsNext ((leaveMasterEnds table listed p n).imp fun _ => And.left) fun t first => ?_
    refine keepsNext ?_ fun u second => modifyKeeps second.table second.listed p fun _ => ⟨rfl,id,rfl,rfl⟩
    split
    · exact modifyKeeps first.table first.listed p fun _ => ⟨rfl,id,rfl,rfl⟩
    · exact .refl first.table first.listed

theorem bumpKeeps (table : Agreed s) (listed : Listed s) :
    Ends Admitted (fun r => Moves touched s r.1) (clusterBumpConfigEpochWithoutConsensus s) := by
  refine (derefEnds s s.myself).bind fun me found => ?_
  split
  · have raised : Moves touched s { s with currentEpoch := s.currentEpoch + 1 } :=
      quietMoves table listed rfl rfl rfl rfl rfl
    exact raised.trans (storeMoves raised.table raised.listed found ⟨rfl,id,rfl,rfl⟩)
  · exact .refl table listed

theorem delSlotKeeps (table : Agreed s) (listed : Listed s) (j : Slot) :
    Ends Admitted (fun r => Moves touched s r.1) (clusterDelSlot s j) :=
  (delSlotEnds table j).imp fun _ done => assignedMoves listed done.1

theorem reassignKeeps (table : Agreed s) (listed : Listed s) (p : NodePtr) (live : (s.heap p).isSome) (j : Slot) :
    Keeps touched s (reassignSlot s p j) :=
  (reassignEnds table live j).imp fun _ assigned => assignedMoves listed assigned

theorem keepsBit {next : Bool → Run ClusterState} (p : NodePtr) (j : Slot)
    (after : ∀ bit, Keeps touched s (next bit)) : Keeps touched s (nodeGetSlotBit s p j >>= next) := by
  have read : Ends Admitted (fun _ : Bool => True) (nodeGetSlotBit s p j) := (derefEnds s p).bind fun _ _ => trivial
  exact read.bind fun bit _ => after bit

theorem delNodeSlotsKeeps (table : Agreed s) (listed : Listed s) (p : NodePtr) :
    Keeps touched s (clusterDelNodeSlots s p) := by
  refine keepsSweep table listed fun t j moves => keepsBit p j fun bit => ?_
  split
  · exact (delSlotKeeps moves.table moves.listed j).bind fun _ more => more
  · exact .refl moves.table moves.listed

/-- All records but one are in the dictionary under their names, and that one is not. -/
structure ListedBut (s : ClusterState) (p : NodePtr) : Prop where
  live : ∀ e ∈ s.nodes.entries, e.node ≠ p ∧ ∃ n, s.heap e.node = some n ∧ n.name = e.name
  listed : ∀ {q n}, q ≠ p → s.heap q = some n → ⟨n.name,q⟩ ∈ s.nodes.entries
  me : ∃ n, s.heap s.myself = some n ∧ n.flags.handshake = false

theorem deleteListed (listed : Listed s) (found : s.heap p = some n) :
    ListedBut { s with nodes := s.nodes.delete n.name } p := by
  have own := listed.listed found
  refine ⟨fun e inside => ?_,fun {q k} other here => ?_,listed.me⟩
  · obtain ⟨member,name⟩ := Dict.memDelete.mp inside
    obtain ⟨k,here,same⟩ := listed.live e member
    refine ⟨?_,k,here,same⟩
    rintro rfl
    rw [found,Option.some.injEq] at here
    exact name (same.symm.trans (congrArg ClusterNode.name here.symm))
  · refine Dict.memDelete.mpr ⟨listed.listed here,fun same => other ?_⟩
    exact congrArg TableEntry.node (s.nodes.entryUnique (listed.listed here) own same)

theorem storeBut (listed : ListedBut s p) (calm : p = s.myself → m.flags.handshake = false) :
    ListedBut (s.store p m) p := by
  refine ⟨fun e inside => ?_,fun {q k} other here => ?_,?_⟩
  · obtain ⟨other,k,here,same⟩ := listed.live e inside
    exact ⟨other,k,by simp [other,here],same⟩
  · simp only [storeHeap,Function.update_of_ne other] at here
    exact listed.listed other here
  · by_cases mine : s.myself = p
    · exact ⟨m,by simp [ClusterState.store,mine],calm mine.symm⟩
    · obtain ⟨k,here,same⟩ := listed.me
      exact ⟨k,by simp [ClusterState.store,mine,here],same⟩

theorem addNodeEnds (listed : ListedBut s p) (live : (s.heap p).isSome) :
    Ends Admitted (fun t => Listed t ∧ ∃ nodes, t = { s with nodes := nodes }) (clusterAddNode s p) := by
  obtain ⟨n,found⟩ := Option.isSome_iff_exists.mp live
  simp only [clusterAddNode,ClusterState.deref,found,bind,Except.bind]
  cases added : s.nodes.add ⟨n.name,p⟩ with
  | none => simp [Admitted]
  | some nodes =>
    simp only [Dict.add] at added
    split at added
    · contradiction
    · rename_i absent
      obtain rfl := Option.some.inj added
      refine ⟨⟨fun e inside => ?_,fun {q k} here => ?_,listed.me⟩,_,rfl⟩
      · rcases Dict.memReplace.mp inside with rfl | ⟨member,_⟩
        · exact ⟨n,found,rfl⟩
        · exact (listed.live e member).2
      · refine Dict.memReplace.mpr ?_
        by_cases same : q = p
        · subst same
          rw [found,Option.some.injEq] at here
          rw [← here]
          exact .inl rfl
        · have member := listed.listed same here
          exact .inr ⟨member,fun name => absent ((Dict.hasIff _ _).mpr ⟨_,member,name⟩)⟩

theorem createNodeKeeps (table : Agreed s) (listed : Listed s) (p : NodePtr) (blank : n.slots = emptyBitmap)
    (none : n.numslots = 0) : Keeps touched s (createNode s p n) := by
  simp only [createNode]
  split
  · simp [Admitted]
  · rename_i free
    have free : s.heap p = Option.none := by simpa using free
    have other {q : NodePtr} {k : ClusterNode} (here : s.heap q = some k) : q ≠ p := by
      rintro rfl
      rw [free] at here
      contradiction
    have but : ListedBut s p := by
      refine ⟨fun e inside => ?_,fun _ here => listed.listed here,listed.me⟩
      obtain ⟨k,here,same⟩ := listed.live e inside
      exact ⟨other here,k,here,same⟩
    have mine : p ≠ s.myself := by
      obtain ⟨k,here,_⟩ := listed.me
      exact (other here).symm
    refine (addNodeEnds (storeBut but fun same => absurd same mine) (by simp)).imp ?_
    rintro t ⟨full,nodes,rfl⟩
    have more := agreedNew table free blank none
    exact ⟨⟨more.agree,more.counted,more.owned⟩,full,rfl,rfl,fun {q k} _ here => ⟨k,by simp [other here,here],rfl⟩⟩

theorem dropMoves (table : Agreed s) (listed : Listed s) (found : s.heap p = some n) (gone : touched p)
    (mine : p ≠ s.myself) (free : ∀ j, s.slots j ≠ some p) :
    Moves touched s { s with nodes := s.nodes.delete n.name, heap := Function.update s.heap p none } := by
  have but := deleteListed listed found
  have kept {q : NodePtr} {k : ClusterNode} (here : Function.update s.heap p none q = some k) :
      q ≠ p ∧ s.heap q = some k := by
    by_cases same : q = p
    · rw [same,Function.update_self] at here
      contradiction
    · rw [Function.update_of_ne same] at here
      exact ⟨same,here⟩
  refine ⟨⟨fun here j => table.agree (kept here).2 j,fun here => table.counted (kept here).2,fun {j q} owner => ?_⟩,
    ⟨fun e inside => ?_,fun here => but.listed (kept here).1 (kept here).2,?_⟩,rfl,rfl,fun {q k} other here => ?_⟩
  · have other : q ≠ p := fun same => free j (same ▸ owner)
    simpa only [Function.update_of_ne other] using table.owned owner
  · obtain ⟨other,k,here,same⟩ := but.live e inside
    exact ⟨k,by rw [← here]; exact Function.update_of_ne other _ _,same⟩
  · obtain ⟨k,here,calm⟩ := but.me
    exact ⟨k,by rw [← here]; exact Function.update_of_ne (Ne.symm mine) _ _,calm⟩
  · have apart : q ≠ p := fun same => other (same ▸ gone)
    exact ⟨k,by rw [← here]; exact Function.update_of_ne apart _ _,rfl⟩

theorem unlinkEnds (table : Agreed s) (listed : Listed s) (n : ClusterNode) :
    Ends Admitted (fun t => Moves touched s t ∧ t.slots = s.slots)
      (n.slaves.foldlM (fun s slave => s.modify slave fun m => { m with slaveof := none }) s) := by
  refine foldKept (fun t slave _ kept => ?_) ⟨.refl table listed,rfl⟩
  have ends := @modifyEnds touched t kept.1.table kept.1.listed slave (fun m => { m with slaveof := none })
    fun _ => ⟨rfl,id,rfl,rfl⟩
  exact ends.imp fun u more => ⟨kept.1.trans more.1,more.2.trans kept.2⟩

theorem freeNodeEnds (table : Agreed s) (listed : Listed s) (gone : touched p) (mine : p ≠ s.myself)
    (free : ∀ j, s.slots j ≠ some p) :
    Ends Admitted (fun t => Moves touched s t ∧ t.heap p = none) (freeClusterNode s p) := by
  refine (derefEnds s p).bind fun n found => ?_
  have never : ∀ q, False → touched q := fun _ no => no.elim
  refine (@unlinkEnds (fun _ => False) s table listed n).bind fun t first => (derefEnds t p).bind fun m there => ?_
  have left : Ends Admitted (fun u => Moves (fun _ => False) t u ∧ u.slots = t.slots)
      (if m.flags.slave then leaveMaster t p m else .ok t) := by
    split
    · exact leaveMasterEnds first.1.table first.1.listed p m
    · exact ⟨.refl first.1.table first.1.listed,rfl⟩
  refine left.bind fun u second => ?_
  obtain ⟨k,here,name⟩ := second.1.names id there
  have moves := (first.1.trans second.1).widen never
  have unowned (j : Slot) : u.slots j ≠ some p := by
    rw [second.2,first.2]
    exact free j
  have dropped := dropMoves moves.table moves.listed here gone (moves.myself ▸ mine) unowned
  rw [name] at dropped
  simp only [Dict.remove]
  split
  · rename_i nodes removed
    split at removed
    · obtain rfl := Option.some.inj removed
      exact ⟨moves.trans dropped,Function.update_self ..⟩
    · contradiction
  · simp [Admitted]

theorem delNodeEnds (table : Agreed s) (listed : Listed s) (gone : touched p) (mine : p ≠ s.myself) :
    Ends Admitted (fun t => Moves touched s t ∧ t.heap p = none) (clusterDelNode s p) := by
  have start : Moves touched s s ∧ ∀ j, False → s.slots j ≠ some p := ⟨.refl table listed,fun _ no => no.elim⟩
  refine (@sweepEnds _ _ Admitted _ _ (fun done t => Moves touched s t ∧ ∀ j, done j → t.slots j ≠ some p)
    (fun done t j undone kept => ?_) _ start).bind fun t swept => ?_
  · have moves : Moves touched s (closeMarkers t p j) :=
      kept.1.trans (quietMoves kept.1.table kept.1.listed rfl rfl rfl rfl rfl)
    dsimp only
    split
    · refine (delSlotEnds moves.table j).bind fun r removed => ?_
      refine ⟨moves.trans (assignedMoves moves.listed removed.1),?_⟩
      rintro k (early | rfl)
      · rw [removed.1.slots]
        by_cases here : k = j
        · rw [here,Function.update_self]
          simp
        · rw [Function.update_of_ne here]
          exact kept.2 k early
      · rw [removed.1.slots,Function.update_self]
        simp
    · rename_i foreign
      refine ⟨moves,?_⟩
      rintro k (early | rfl)
      · exact kept.2 k early
      · exact foreign
  · exact (freeNodeEnds swept.1.table swept.1.listed gone (swept.1.myself ▸ mine) fun j => swept.2 j trivial).imp
      fun u last => ⟨swept.1.trans last.1,last.2⟩

theorem readdKeeps (table : Agreed s) (listed : Listed s) (found : s.heap p = some n) (gone : touched p)
    (slots : m.slots = n.slots) (numslots : m.numslots = n.numslots)
    (calm : p = s.myself → m.flags.handshake = false) :
    Keeps touched s (clusterAddNode ({ s with nodes := s.nodes.delete n.name }.store p m) p) := by
  have but := storeBut (deleteListed listed found) calm
  refine (addNodeEnds but (by simp)).imp ?_
  rintro t ⟨full,nodes,rfl⟩
  have stored := agreedRecord table found slots numslots
  refine ⟨⟨stored.agree,stored.counted,stored.owned⟩,full,rfl,rfl,fun {q k} other here => ?_⟩
  have apart : q ≠ p := fun same => other (same ▸ gone)
  exact ⟨k,by rw [← here]; exact Function.update_of_ne apart _ _,rfl⟩

theorem renameNodeKeeps (table : Agreed s) (listed : Listed s) (gone : touched p) (newname : NodeName) :
    Keeps touched s (clusterRenameNode s p newname) := by
  refine keepsDeref p fun n found => ?_
  simp only [Dict.remove]
  split
  · rename_i nodes removed
    split at removed
    · obtain rfl := Option.some.inj removed
      refine readdKeeps table listed found gone rfl rfl ?_
      rintro rfl
      obtain ⟨me,here,calm⟩ := listed.me
      rw [found,Option.some.injEq] at here
      exact here ▸ calm
    · contradiction
  · simp [Admitted]

theorem updateSlotsKeeps (table : Agreed s) (listed : Listed s) (live : (s.heap p).isSome) (epoch : Nat)
    (slots : Bitmap 16384) : Keeps touched s (clusterUpdateSlotsConfigWith s p epoch slots) := by
  obtain ⟨me,found,_⟩ := listed.me
  by_cases mine : p = s.myself
  · simp only [clusterUpdateSlotsConfigWith,ClusterState.deref,found,bind,Except.bind,if_pos mine]
    exact .refl table listed
  · refine (updateEnds table (by rw [found]; rfl) live mine epoch slots).weaken ?_ ?_
    · rintro t ⟨updated,_⟩
      obtain ⟨keys,assigned⟩ := updated.assigned
      have first : Moves touched s (s.setKeys keys) := quietMoves table listed rfl rfl rfl rfl rfl
      exact first.trans (assignedMoves first.listed assigned)
    · rintro e ⟨rfl,_⟩
      simp [Admitted]

end

section
variable {touched : NodePtr → Prop} {s : ClusterState}

theorem addslotsKeeps (table : Agreed s) (listed : Listed s) (del : Bool) (args : List (Option Slot)) :
    Ends Admitted (fun r => Moves touched s r.1) (addslots s del args) := by
  rw [addslots]
  split
  · exact .refl table listed
  · rename_i marks _
    have keeps : Keeps touched s (applySlots del marks s) := by
      refine keepsSweep table listed fun t j moves => ?_
      dsimp only
      split
      · obtain ⟨u,shape,first⟩ : ∃ u, (if (t.importingSlotsFrom j).isSome then clearImporting t j else t) = u ∧
            Moves touched t u := by
          refine ⟨_,rfl,?_⟩
          split
          · exact quietMoves moves.table moves.listed rfl rfl rfl rfl rfl
          · exact .refl moves.table moves.listed
        rw [shape]
        have change : Ends Admitted (fun r => Moves touched u r.1)
            (if del then clusterDelSlot u j else clusterAddSlot u u.myself j) := by
          obtain ⟨me,found,_⟩ := first.listed.me
          split
          · exact delSlotKeeps first.table first.listed j
          · exact (addSlotEnds first.table (by rw [found]; rfl) j).imp fun _ done => assignedMoves first.listed done.1
        refine change.bind fun r second => ?_
        split
        · exact first.trans second
        · simp [Admitted]
      · exact .refl moves.table moves.listed
    exact keepsReply keeps .ok

theorem flushslotsKeeps (table : Agreed s) (listed : Listed s) :
    Ends Admitted (fun r => Moves touched s r.1) (flushslots s) := by
  rw [flushslots]
  split
  · exact .refl table listed
  · exact keepsReply (delNodeSlotsKeeps table listed s.myself) .ok

theorem lookupLive (listed : Listed s) {name : NodeName} {p : NodePtr} (known : clusterLookupNode s name = some p) :
    (s.heap p).isSome := by
  obtain ⟨n,found,_⟩ := listed.lookup known
  rw [found]
  rfl

theorem Moves.live {t : ClusterState} (moves : Moves (fun _ => False) s t) {p : NodePtr} (live : (s.heap p).isSome) :
    (t.heap p).isSome := by
  obtain ⟨n,found⟩ := Option.isSome_iff_exists.mp live
  obtain ⟨m,there,_⟩ := moves.names id found
  rw [there]
  rfl

theorem closingKeeps (table : Agreed s) (listed : Listed s) {p : NodePtr} (live : (s.heap p).isSome) (j : Slot)
    (clear : Bool) {next : ClusterState → Run ClusterState}
    (after : ∀ t, Moves (fun _ => False) s t → Keeps touched t (next t)) :
    Keeps touched s (reassignSlot (if clear then clearMigrating s j else s) p j >>= next) := by
  have quiet : Moves (fun _ => False) s (if clear then clearMigrating s j else s) := by
    split
    · exact quietMoves table listed rfl rfl rfl rfl rfl
    · exact .refl table listed
  refine (reassignEnds quiet.table (quiet.live live) j).bind fun t assigned => ?_
  have moves := quiet.trans (assignedMoves quiet.listed assigned)
  exact (after t moves).imp fun u more => (moves.widen fun _ no => no.elim).trans more

theorem setslotNodeKeeps (table : Agreed s) (listed : Listed s) {p : NodePtr} (live : (s.heap p).isSome) (j : Slot) :
    Keeps touched s (setslotNode s j p) := by
  have shape : (if s.slotsKeysCount j = 0 ∧ (s.migratingSlotsTo j).isSome then clearMigrating s j else s) =
      if decide (s.slotsKeysCount j = 0 ∧ (s.migratingSlotsTo j).isSome) then clearMigrating s j else s := by
    simp
  simp only [setslotNode,shape]
  refine closingKeeps table listed live j _ fun t moves => ?_
  split
  · refine (bumpKeeps moves.table moves.listed).bind fun r (more : Moves touched t r.1) => ?_
    exact more.trans (quietMoves more.table more.listed rfl rfl rfl rfl rfl)
  · exact .refl moves.table moves.listed

theorem setslotKeeps (table : Agreed s) (listed : Listed s) (slot : Option Slot) (action : SetslotAction) :
    Ends Admitted (fun r => Moves touched s r.1) (setslot s slot action) := by
  refine (derefEnds s s.myself).bind fun me _ => ?_
  split
  · exact .refl table listed
  · cases slot with
    | none => exact .refl table listed
    | some j =>
      cases action with
      | migrating name | importing name =>
        dsimp only
        split
        · exact .refl table listed
        · split
          · exact .refl table listed
          · exact quietMoves table listed rfl rfl rfl rfl rfl
      | stable => exact quietMoves table listed rfl rfl rfl rfl rfl
      | node name =>
        dsimp only
        split
        · exact .refl table listed
        · rename_i p known
          exact keepsReply (setslotNodeKeeps table listed (lookupLive listed known) j) .ok
      | other => exact .refl table listed

theorem markAllKeeps (table : Agreed s) (listed : Listed s) (p : NodePtr) {mark : ClusterState → Slot → ClusterState}
    (quiet : ∀ t j, (mark t j).myself = t.myself ∧ (mark t j).nodes = t.nodes ∧ (mark t j).heap = t.heap ∧
      (mark t j).slots = t.slots ∧ (mark t j).relatedIns = t.relatedIns) : Keeps touched s (markAll p mark s) := by
  refine keepsSweep table listed fun t j moves => keepsBit p j fun bit => ?_
  split
  · obtain ⟨myself,nodes,heap,slots,related⟩ := quiet t j
    exact quietMoves moves.table moves.listed myself nodes heap slots related
  · exact .refl moves.table moves.listed

theorem moveOneKeeps (table : Agreed s) (listed : Listed s) (p : NodePtr) {q : NodePtr} (live : (s.heap q).isSome)
    (j : Slot) : Keeps touched s (moveOne p q s j) := by
  refine keepsBit p j fun first => keepsBit q j fun second => ?_
  split
  · exact .refl table listed
  · refine closingKeeps table listed live j _ fun t moves => ?_
    split
    · exact quietMoves moves.table moves.listed rfl rfl rfl rfl rfl
    · exact .refl moves.table moves.listed

theorem setallslotKeeps (table : Agreed s) (listed : Listed s) (action : SetallslotAction) (source target : NodeName) :
    Ends Admitted (fun r => Moves touched s r.1) (setallslot s action source target) := by
  refine (derefEnds s s.myself).bind fun me _ => ?_
  split
  · exact .refl table listed
  · split
    · exact .refl table listed
    · split
      · exact .refl table listed
      · rename_i p _ _ q known
        have live := lookupLive listed known
        cases action with
        | migrating | importing | stable =>
          refine keepsReply (markAllKeeps table listed _ fun _ _ => ?_) .ok
          exact ⟨rfl,rfl,rfl,rfl,rfl⟩
        | node =>
          have swept : Keeps (fun _ => False) s (sweep (moveOne p q) s) :=
            keepsSweep table listed fun t j moves => moveOneKeeps moves.table moves.listed p (moves.live live) j
          exact keepsReply (swept.imp fun t moves => moves.widen fun _ no => no.elim) .ok
        | other => exact .refl table listed

theorem forgetAllKeeps (table : Agreed s) (listed : Listed s) (order : IterOrder TableEntry)
    (gone : ∀ p, p ≠ s.myself → touched p) : Keeps touched s (forgetAll order s) := by
  refine keepsFold table listed fun t e moves => ?_
  split
  · exact .refl moves.table moves.listed
  · rename_i other
    exact (delNodeEnds moves.table moves.listed (gone _ (moves.myself ▸ other)) other).imp fun _ => And.left

theorem resetHardKeeps (table : Agreed s) (listed : Listed s) (newname : NodeName) (gone : touched s.myself) :
    Keeps touched s (resetHard s newname) := by
  refine keepsDeref s.myself fun me found => ?_
  have quiet : Moves touched s { s with currentEpoch := 0, lastVoteEpoch := 0 } :=
    quietMoves table listed rfl rfl rfl rfl rfl
  obtain ⟨n,here,calm⟩ := listed.me
  rw [found,Option.some.injEq] at here
  subst here
  refine Ends.imp (readdKeeps quiet.table quiet.listed found gone ?_ ?_ fun _ => ?_) fun t moves => quiet.trans moves
  · rfl
  · rfl
  · exact calm

theorem resetKeeps (table : Agreed s) (listed : Listed s) (hard : Bool) (order : IterOrder TableEntry)
    (newname : NodeName) (gone : ∀ p, p ≠ s.myself ∨ hard = true → touched p) :
    Keeps touched s (clusterReset s hard order newname) := by
  refine keepsDeref s.myself fun me _ => ?_
  have master : Keeps touched s (if me.flags.slave then leaveReplication s else .ok s) := by
    split
    · exact keepsNext (setNodeAsMasterKeeps table listed s.myself) fun t moves =>
        quietMoves moves.table moves.listed rfl rfl rfl rfl rfl
    · exact .refl table listed
  refine keepsNext master fun t first => ?_
  have closed : Moves touched t (clusterCloseAllSlots t) := quietMoves first.table first.listed rfl rfl rfl rfl rfl
  refine Ends.imp ?_ fun u moves => closed.trans moves
  refine keepsNext (keepsSweep closed.table closed.listed fun u j moves =>
    (delSlotKeeps moves.table moves.listed j).bind fun _ more => more) fun u second => ?_
  have myself : u.myself = s.myself := second.myself.trans (closed.myself.trans first.myself)
  refine keepsNext (forgetAllKeeps second.table second.listed order fun p other => gone p (.inl (myself ▸ other)))
    fun v third => ?_
  split
  · rename_i yes
    exact resetHardKeeps third.table third.listed newname (gone _ (.inr yes))
  · exact .refl third.table third.listed

theorem setMasterKeeps (table : Agreed s) (listed : Listed s) (n : NodePtr) :
    Keeps touched s (clusterSetMaster s n) := by
  refine keepsDeref s.myself fun me _ => ?_
  split
  · simp [Admitted]
  · have left : Keeps touched s (if me.flags.master then
        s.modify s.myself fun me => { me with
          flags := { me.flags with master := false, migrateTo := false, slave := true } }
        else leaveMaster s s.myself me) := by
      split
      · exact modifyKeeps table listed s.myself fun _ => ⟨rfl,id,rfl,rfl⟩
      · exact (leaveMasterEnds table listed s.myself me).imp fun _ => And.left
    refine keepsNext left fun t first => ?_
    have closed : Moves touched t (if me.flags.master then clusterCloseAllSlots t else t) := by
      split
      · exact quietMoves first.table first.listed rfl rfl rfl rfl rfl
      · exact .refl first.table first.listed
    refine Ends.imp ?_ fun u moves => closed.trans moves
    exact keepsNext (modifyKeeps closed.table closed.listed _ fun _ => ⟨rfl,id,rfl,rfl⟩) fun u second =>
      addSlaveKeeps second.table second.listed n _

theorem replicateKeeps (table : Agreed s) (listed : Listed s) (name : NodeName) :
    Ends Admitted (fun r => Moves touched s r.1) (replicate s name) := by
  rw [replicate]
  split
  · exact .refl table listed
  · rename_i n _
    refine (derefEnds s s.myself).bind fun me _ => (derefEnds s n).bind fun node _ => ?_
    split
    · exact .refl table listed
    · split
      · exact .refl table listed
      · split
        · exact .refl table listed
        · exact keepsReply (setMasterKeeps table listed n) .ok

theorem epochsEnds (table : Agreed s) (listed : Listed s) (hdr : Header) :
    Ends Admitted (fun r => Moves touched s r.1 ∧ ∀ p n, s.heap p = some n →
      ∃ m, r.1.heap p = some m ∧ m.flags = n.flags)
      (updateEpochs s hdr) := by
  have same : ∀ p n, s.heap p = some n → ∃ m, s.heap p = some m ∧ m.flags = n.flags := fun _ n here => ⟨n,here,rfl⟩
  rw [updateEpochs]
  split
  · exact ⟨.refl table listed,same⟩
  · rename_i sender _
    refine (derefEnds s sender).bind fun n found => ?_
    split
    · exact ⟨.refl table listed,same⟩
    · have raised : Moves touched s { s with currentEpoch := max s.currentEpoch hdr.currentEpoch } :=
        quietMoves table listed rfl rfl rfl rfl rfl
      split
      · refine ⟨raised.trans (storeMoves raised.table raised.listed found ⟨rfl,id,rfl,rfl⟩),fun p k there => ?_⟩
        by_cases here : p = sender
        · subst here
          rw [found,Option.some.injEq] at there
          exact ⟨_,Function.update_self ..,by rw [← there]⟩
        · exact ⟨k,by rw [← there]; exact Function.update_of_ne here _ _,rfl⟩
      · exact ⟨raised,same⟩

theorem gossipKeeps (table : Agreed s) (listed : Listed s) (sender : Option NodePtr) (gossip : List GossipEntry) :
    Keeps touched s (clusterProcessGossipSection s sender gossip) := by
  refine keepsFold table listed fun t g moves => ?_
  split
  · exact .refl moves.table moves.listed
  · split
    · exact createNodeKeeps moves.table moves.listed g.fresh rfl rfl
    · exact .refl moves.table moves.listed

theorem meetUnknownKeeps (table : Agreed s) (listed : Listed s) (hdr : Header) (pkt : ConfigPacket) :
    Keeps touched s (meetUnknown s hdr pkt) := by
  rw [meetUnknown]
  split
  · refine keepsNext ?_ fun t moves => gossipKeeps moves.table moves.listed _ _
    exact createNodeKeeps table listed pkt.fresh rfl rfl
  · exact .refl table listed

theorem switchRoleKeeps (table : Agreed s) (listed : Listed s) (sender : NodePtr) (slaveof : Option NodeName) :
    Keeps touched s (switchRole s sender slaveof) := by
  cases slaveof with
  | none => exact setNodeAsMasterKeeps table listed sender
  | some name =>
    refine keepsDeref sender fun n _ => ?_
    have role : Keeps touched s (if n.flags.master then demote s sender else .ok s) := by
      split
      · exact keepsNext (delNodeSlotsKeeps table listed sender) fun t moves =>
          modifyKeeps moves.table moves.listed sender fun _ => ⟨rfl,id,rfl,rfl⟩
      · exact .refl table listed
    refine keepsNext role fun t first => ?_
    split
    · exact .refl first.table first.listed
    · rename_i master _
      refine keepsDeref sender fun n _ => ?_
      split
      · exact .refl first.table first.listed
      · refine keepsNext ((leaveMasterEnds first.table first.listed sender n).imp fun _ => And.left) fun u second => ?_
        refine keepsNext (addSlaveKeeps second.table second.listed master sender) fun v third => ?_
        exact modifyKeeps third.table third.listed sender fun _ => ⟨rfl,id,rfl,rfl⟩

theorem updateSlotsSenderKeeps (table : Agreed s) (listed : Listed s) (sender : NodePtr) (epoch : Nat)
    (slots : Bitmap 16384) : Keeps touched s (updateSlots s sender epoch slots) := by
  refine keepsDeref sender fun n found => ?_
  split
  · exact updateSlotsKeeps table listed (by rw [found]; rfl) epoch slots
  · exact .refl table listed

theorem collisionKeeps (table : Agreed s) (listed : Listed s) (sender : NodePtr) (epoch : Nat) :
    Keeps touched s (clusterHandleConfigEpochCollision s sender epoch) := by
  refine keepsDeref s.myself fun me found => keepsDeref sender fun n _ => ?_
  split
  · have raised : Moves touched s { s with currentEpoch := s.currentEpoch + 1 } :=
      quietMoves table listed rfl rfl rfl rfl rfl
    exact raised.trans (storeMoves raised.table raised.listed found ⟨rfl,id,rfl,rfl⟩)
  · exact .refl table listed

theorem knownSenderKeeps (table : Agreed s) (listed : Listed s) (sender : NodePtr) (epoch : Nat) (pkt : ConfigPacket) :
    Keeps touched s (knownSender s sender epoch pkt) := by
  refine keepsNext (modifyKeeps table listed sender fun _ => ⟨rfl,id,rfl,rfl⟩) fun t first => ?_
  refine keepsNext (switchRoleKeeps first.table first.listed sender _) fun u second => ?_
  refine keepsNext (updateSlotsSenderKeeps second.table second.listed sender epoch _) fun v third => ?_
  exact keepsNext (collisionKeeps third.table third.listed sender epoch) fun w last =>
    gossipKeeps last.table last.listed _ _

theorem linkedNodeEnds (table : Agreed s) (listed : Listed s) (hdr : Header) (pkt : ConfigPacket)
    (sender : Option NodePtr)
    (gone : ∀ p n, pkt.link = some p → s.heap p = some n → n.flags.handshake = true → touched p) :
    Ends Admitted (fun r => Moves touched s r.1) (linkedNode s hdr pkt sender) := by
  rw [linkedNode]
  split
  · exact .refl table listed
  · rename_i p link
    refine (derefEnds s p).bind fun n found => ?_
    split
    · rename_i handshake
      have own := gone p n link found handshake
      have other : p ≠ s.myself := by
        rintro rfl
        obtain ⟨me,here,calm⟩ := listed.me
        rw [found,Option.some.injEq] at here
        rw [← here,handshake] at calm
        contradiction
      split
      · exact (delNodeEnds table listed own other).bind fun t moves => moves.1
      · refine (renameNodeKeeps table listed own hdr.sender).bind fun t first => ?_
        refine (modifyKeeps first.table first.listed p fun m => ?_).bind fun u second => first.trans second
        exact ⟨rfl,fun _ => rfl,rfl,rfl⟩
    · split
      · refine (modifyKeeps table listed p fun m => ?_).bind fun u moves => moves
        exact ⟨rfl,id,rfl,rfl⟩
      · exact .refl table listed

/-- Every record is still there as it was. -/
def Extends (s t : ClusterState) : Prop := ∀ p n, s.heap p = some n → t.heap p = some n

theorem createNodeExtends (s : ClusterState) (p : NodePtr) (n : ClusterNode) :
    Ends (fun _ => True) (fun t => Extends s t) (createNode s p n) := by
  simp only [createNode]
  split
  · trivial
  · rename_i free
    have stored : Extends s (s.store p n) := by
      intro q k here
      have other : q ≠ p := by
        rintro rfl
        rw [here] at free
        exact free rfl
      simp only [storeHeap,Function.update_of_ne other,here]
    simp only [clusterAddNode,ClusterState.deref,storeHeap,Function.update_self,bind,Except.bind]
    split
    · exact stored
    · trivial

theorem gossipExtends (s : ClusterState) (sender : Option NodePtr) (gossip : List GossipEntry) :
    Ends (fun _ => True) (fun t => Extends s t) (clusterProcessGossipSection s sender gossip) := by
  refine @foldKept _ _ _ (fun _ => True) _ (fun t => Extends s t) gossip (fun t g _ kept => ?_) _ fun _ _ here => here
  split
  · exact kept
  · split
    · exact (createNodeExtends t g.fresh _).imp fun u more q k here => more q k (kept q k here)
    · exact kept

theorem meetUnknownExtends (s : ClusterState) (hdr : Header) (pkt : ConfigPacket) :
    Ends (fun _ => True) (fun t => Extends s t) (meetUnknown s hdr pkt) := by
  rw [meetUnknown]
  split
  · refine (createNodeExtends s pkt.fresh _).bind fun t first => ?_
    exact (gossipExtends t _ pkt.gossip).imp fun u more q k here => more q k (first q k here)
  · exact fun _ _ here => here

theorem both {faults : Fault → Prop} {α : Type} {first second : α → Prop} {run : Run α}
    (left : Ends faults first run) (right : Ends (fun _ => True) second run) :
    Ends faults (fun a => first a ∧ second a) run := by
  cases run with
  | ok a => exact ⟨left,right⟩
  | error e => exact left

def Touched (s : ClusterState) : Event → NodePtr → Prop
  | .forget name, p => clusterLookupNode s name = some p ∧ p ≠ s.myself ∧
      ¬ ∃ me, s.heap s.myself = some me ∧ me.flags.slave = true ∧ me.slaveof = some p
  | .reset hard _ _, p => (p ≠ s.myself ∨ hard = true) ∧
      ¬ ∃ me, s.heap s.myself = some me ∧ me.flags.master = true ∧ dbEmpty s = false
  | .config _ pkt, p => pkt.link = some p ∧ ∀ n, s.heap p = some n → n.flags.handshake = true
  | .handshakeTimeout q, p => p = q ∧ ∃ n, s.heap q = some n ∧ n.flags.myself = false ∧ n.flags.noaddr = false ∧
      n.flags.handshake = true
  | _, _ => False

theorem configKeeps (table : Agreed s) (listed : Listed s) (hdr : Header) (pkt : ConfigPacket) :
    Keeps (Touched s (.config hdr pkt)) s (configPacket s hdr pkt) := by
  have epochs := @epochsEnds (Touched s (.config hdr pkt)) s table listed hdr
  refine epochs.bind fun r ends => ?_
  obtain ⟨first,flags⟩ := ends
  have met := @meetUnknownKeeps (Touched s (.config hdr pkt)) r.1 first.table first.listed hdr pkt
  refine (both met (meetUnknownExtends r.1 hdr pkt)).bind fun t ends => ?_
  obtain ⟨second,kept⟩ := ends
  have gone (p : NodePtr) (n : ClusterNode) (link : pkt.link = some p) (there : t.heap p = some n)
      (handshake : n.flags.handshake = true) : Touched s (.config hdr pkt) p := by
    refine ⟨link,fun k here => ?_⟩
    obtain ⟨m,raised,same⟩ := flags p k here
    rw [kept p m raised,Option.some.injEq] at there
    rw [← same,there,handshake]
  refine (linkedNodeEnds second.table second.listed hdr pkt _ gone).bind fun u third => ?_
  have moves := first.trans (second.trans third)
  obtain ⟨last,goOn⟩ := u
  cases goOn with
  | false => exact moves
  | true =>
    cases clusterLookupNode s hdr.sender with
    | none => exact moves
    | some sender => exact (knownSenderKeeps third.table third.listed sender _ pkt).imp fun v more => moves.trans more

theorem updatePacketKeeps (table : Agreed s) (listed : Listed s) (hdr : Header) (nodename : NodeName) (epoch : Nat)
    (slots : Bitmap 16384) : Keeps touched s (updatePacket s hdr nodename epoch slots) := by
  have epochs := @epochsEnds (fun _ => False) s table listed hdr
  refine epochs.bind fun r ends => ?_
  have first := ends.1
  refine Ends.imp ?_ fun t moves => (first.widen fun _ no => no.elim).trans moves
  dsimp only
  split
  · rename_i n _ known
    refine keepsDeref n fun node found => ?_
    split
    · exact .refl first.table first.listed
    · have master : Keeps (fun _ => False) r.1 (if node.flags.slave then clusterSetNodeAsMaster r.1 n else .ok r.1) := by
        split
        · exact setNodeAsMasterKeeps first.table first.listed n
        · exact .refl first.table first.listed
      refine Ends.imp ?_ fun t (moves : Moves (fun _ => False) r.1 t) => moves.widen fun _ no => no.elim
      refine keepsNext master fun t second => keepsNext (modifyKeeps second.table second.listed n fun _ => ?_)
        fun u third => ?_
      · exact ⟨rfl,id,rfl,rfl⟩
      · have live : (u.heap n).isSome := third.live (second.live (by rw [found]; rfl))
        exact updateSlotsKeeps third.table third.listed live epoch slots
  · exact .refl first.table first.listed

theorem forgetKeeps (table : Agreed s) (listed : Listed s) (name : NodeName) :
    Ends Admitted (fun r => Moves (Touched s (.forget name)) s r.1) (forget s name) := by
  rw [forget]
  split
  · exact .refl table listed
  · rename_i p known
    refine (derefEnds s s.myself).bind fun me found => ?_
    split
    · exact .refl table listed
    · rename_i other
      split
      · exact .refl table listed
      · rename_i free
        have gone : Touched s (.forget name) p := by
          refine ⟨known,other,?_⟩
          rintro ⟨m,here,slave,master⟩
          rw [found,Option.some.injEq] at here
          exact free ⟨here ▸ slave,here ▸ master⟩
        exact keepsReply ((delNodeEnds table listed gone other).imp fun _ => And.left) .ok

theorem resetCommandKeeps (table : Agreed s) (listed : Listed s) (hard : Bool) (order : IterOrder TableEntry)
    (newname : NodeName) :
    Ends Admitted (fun r => Moves (Touched s (.reset hard order newname)) s r.1) (reset s hard order newname) := by
  refine (derefEnds s s.myself).bind fun me found => ?_
  split
  · exact .refl table listed
  · rename_i free
    refine keepsReply (resetKeeps table listed hard order newname fun p which => ⟨which,?_⟩) .ok
    rintro ⟨m,here,master,full⟩
    rw [found,Option.some.injEq] at here
    exact free ⟨here ▸ master,full⟩

theorem timeoutKeeps (table : Agreed s) (listed : Listed s) (p : NodePtr) :
    Keeps (Touched s (.handshakeTimeout p)) s (handshakeTimeout s p) := by
  refine keepsDeref p fun n found => ?_
  split
  · rename_i shown
    have other : p ≠ s.myself := by
      rintro rfl
      obtain ⟨me,here,calm⟩ := listed.me
      rw [found,Option.some.injEq] at here
      rw [← here,shown.2.2] at calm
      contradiction
    have gone : Touched s (.handshakeTimeout p) p := by
      refine ⟨rfl,n,found,?_,?_,shown.2.2⟩
      · simpa using shown.1
      · simpa using shown.2.1
    exact (delNodeEnds table listed gone other).imp fun _ => And.left
  · exact .refl table listed

theorem failoverKeeps (table : Agreed s) (listed : Listed s) :
    Keeps touched s (clusterFailoverReplaceYourMaster s) := by
  refine keepsDeref s.myself fun me _ => ?_
  split
  · rename_i oldmaster _ _
    refine keepsNext (setNodeAsMasterKeeps table listed s.myself) fun t first => ?_
    refine keepsSweep first.table first.listed fun u j moves => keepsBit oldmaster j fun bit => ?_
    split
    · obtain ⟨m,here,_⟩ := moves.listed.me
      exact reassignKeeps moves.table moves.listed _ (by rw [here]; rfl) j
    · exact .refl moves.table moves.listed
  · exact .refl table listed

def HotGroup : Event → Prop
  | .hotgroup _ _ => True
  | .hotGroupPacket _ _ _ _ => True
  | _ => False

theorem firstOf {run : Run (ClusterState × Reply)} (ends : Ends Admitted (fun r => Moves touched s r.1) run) :
    Keeps touched s (do
      let r ← run
      return r.1) := ends.bind fun _ moves => moves

theorem stepKeeps (table : Agreed s) (listed : Listed s) {e : Event} (quiet : ¬ HotGroup e) :
    Keeps (Touched s e) s (step s e) := by
  cases e with
  | addslots del args => exact firstOf (addslotsKeeps table listed del args)
  | flushslots => exact firstOf (flushslotsKeeps table listed)
  | setslot slot action => exact firstOf (setslotKeeps table listed slot action)
  | setallslot action source target => exact firstOf (setallslotKeeps table listed action source target)
  | bumpepoch => exact (bumpKeeps table listed).bind fun r (moves : Moves _ s r.1) => moves
  | forget name => exact firstOf (forgetKeeps table listed name)
  | replicate name => exact firstOf (replicateKeeps table listed name)
  | reset hard order newname => exact firstOf (resetCommandKeeps table listed hard order newname)
  | meet fresh name ip port cport => exact firstOf (keepsReply (createNodeKeeps table listed fresh rfl rfl) .ok)
  | hotgroup del slot => exact absurd trivial quiet
  | config hdr pkt => exact configKeeps table listed hdr pkt
  | update hdr nodename epoch slots => exact updatePacketKeeps table listed hdr nodename epoch slots
  | hotGroupPacket hdr nodename slot status => exact absurd trivial quiet
  | handshakeTimeout p => exact timeoutKeeps table listed p
  | failover => exact failoverKeeps table listed
  | keys count => exact quietMoves table listed rfl rfl rfl rfl rfl
  | liveness p pfail fail noaddr ip port cport => exact modifyKeeps table listed p fun _ => ⟨rfl,id,rfl,rfl⟩

end

end HpuCache.NodeFrames
