import HpuCache.ConfigLines

/-! The configuration that was saved is loaded again: the same nodes under the same names, the
same owners, markers and epochs, line after line from the empty state. What is lost, by
design, is the nodes in handshake and the ownership of their slots. -/
namespace HpuCache.ConfigTrip
open BitArray ByteText FaultRun KeyedDict KeySlot NodeTable SlotTable TextLines ConfigSave ConfigText ConfigLoad ConfigReads
  ConfigLines

/-- The name of a node that is written. -/
def Shown (s : ClusterState) (name : NodeName) : Prop :=
  ∃ p n, s.heap p = some n ∧ n.flags.handshake = false ∧ n.name = name

/-- The fields of a line before its slots have been read into the record of the node. -/
structure Filled (s : ClusterState) (n : ClusterNode) (p : NodePtr) (ld next : Loading) : Prop where
  grown : Extends (Shown s) (· = p) ld next
  slots : next.cluster.slots = ld.cluster.slots
  migrating : next.cluster.migratingSlotsTo = ld.cluster.migratingSlotsTo
  importing : next.cluster.importingSlotsFrom = ld.cluster.importingSlotsFrom
  epochs : epochs next = epochs ld
  myself : next.myself = if n.flags.myself = true then some p else ld.myself
  matched : ∃ m, next.cluster.heap p = some m ∧ Matches s next.cluster n m

theorem fieldsRead {s : ClusterState} (sound : Sound s) (textual : Textual s) {source p : NodePtr} {n m : ClusterNode}
    {ld : Loading} (found : s.heap source = some n) (formed : Formed ld) (here : ld.cluster.heap p = some m)
    (name : m.name = n.name) (blank : bare m = createClusterNode m.name .none)
    (none : n.flags.myself = true → ld.myself = none) :
    ∃ next, readFields p ld (addressWord n) (representClusterNodeFlags n.flags) (masterWord s n)
        (decimal (epochOf s n)) = .ok next ∧ Filled s n p ld next := by
  obtain ⟨plain,fits,port,cport⟩ := textual.addresses found
  -- The record after its address, and after its flags.
  let addressed : ClusterNode := { m with ip := n.ip, port := n.port, cport := n.cport }
  let flagged : ClusterNode := { addressed with flags := joinFlags n.flags m.flags }
  let third : Loading := { (ld.put p addressed).put p flagged with
    myself := if n.flags.myself = true then some p else ld.myself }
  have alive : ∀ t : Loading, ∀ k, t.cluster.heap p = some k → ∀ q, q = p → (t.cluster.heap q).isSome :=
    fun t k there q mine => by rw [mine,there]; rfl
  have first : Extends (Shown s) (· = p) ld (ld.put p addressed) :=
    storeExtends formed here rfl rfl rfl fun other => absurd rfl other
  have stored : (ld.put p addressed).cluster.heap p = some addressed := by simp
  have second : Extends (Shown s) (· = p) (ld.put p addressed) ((ld.put p addressed).put p flagged) :=
    storeExtends first.formed stored rfl rfl rfl fun other => absurd rfl other
  have storedFlags : third.cluster.heap p = some flagged := by simp [third]
  have toThird : Extends (Shown s) (· = p) ld third :=
    first.trans (alive ld m here) (second.trans (alive _ _ stored) (ownExtends second.formed _))
  have unbound : m.slaveof = Option.none := ofBare (n := createClusterNode m.name .none) blank ClusterNode.slaveof
  have masters : ∀ {q}, n.slaveof = some q → ∃ k, s.heap q = some k ∧ k.name.length = 40 ∧ k.name.head? ≠ some 45 ∧
      Shown s k.name := fun {q} master => by
    obtain ⟨k,there,shown⟩ := sound.masters found master
    obtain ⟨long,_,head⟩ := textual.names there
    exact ⟨k,there,long,head,q,k,there,shown,rfl⟩
  obtain ⟨fourth,k,read,at_,grown,quiet,shape,same⟩ := masterRead toThird.formed storedFlags masters unbound
  let filled : ClusterNode := { k with configEpoch := strtoull (decimal (epochOf s n)) }
  have last : Extends (Shown s) (· = p) fourth (fourth.put p filled) :=
    storeExtends grown.formed at_ rfl rfl rfl fun other => absurd rfl other
  have ran : readFields p ld (addressWord n) (representClusterNodeFlags n.flags) (masterWord s n)
      (decimal (epochOf s n)) = .ok (fourth.put p filled) := by
    rw [readFields,addressRead plain fits port cport,valueBind]
    change (ld.modify p fun l => { l with ip := n.ip, port := n.port, cport := n.cport }) >>= _ = _
    rw [modifyAt here,valueBind,flagsSplit,flagsRead stored n.flags none,valueBind]
    change readMaster p third (masterWord s n) >>= _ = _
    rw [read,valueBind,modifyAt at_]
  have wide : epochOf s n < 2 ^ 64 := Nat.lt_of_le_of_lt (sound.epochOf found) sound.wide.1
  let whole : ClusterNode := { flagged with slaveof := k.slaveof, configEpoch := epochOf s n }
  have bareShape : bare filled = bare whole := by
    have value : bare filled = { bare k with configEpoch := strtoull (decimal (epochOf s n)) } := rfl
    rw [value,shape,strtoullDecimal wide]
    rfl
  have flags : shownFlags filled.flags = shownFlags n.flags := by
    have kept : shownFlags filled.flags = shownFlags flagged.flags := ofBare bareShape fun l => shownFlags l.flags
    have fresh : { m.flags with migrateTo := false } = NodeFlags.none :=
      ofBare (n := createClusterNode m.name .none) blank ClusterNode.flags
    exact kept.trans (joinedFlags fresh)
  have final : (fourth.put p filled).cluster.heap p = some filled := by simp
  refine ⟨_,ran,toThird.trans (alive ld m here) (grown.trans (alive _ _ storedFlags) last),quiet.slots,quiet.migrating,
    quiet.importing,quiet.epochs,quiet.myself,filled,final,?_,?_,?_,?_,flags,?_,?_⟩
  · have own : filled.name = flagged.name := ofBare bareShape ClusterNode.name
    exact own.trans name
  · exact ofBare bareShape ClusterNode.ip
  · exact ofBare bareShape ClusterNode.port
  · exact ofBare bareShape ClusterNode.cport
  · exact last.sameName same
  · exact strtoullDecimal wide

/-- What stands after the lines of some nodes: their records match, the other records are
blank, and owners, markers and the server itself are those that the lines gave. -/
structure Read (s : ClusterState) (done : NodePtr → Prop) (ld : Loading) : Prop where
  formed : Formed ld
  known : ∀ {q m}, ld.cluster.heap q = some m → Shown s m.name
  matched : ∀ {p n}, done p → s.heap p = some n → ∃ q m, ld.cluster.heap q = some m ∧ Matches s ld.cluster n m
  blank : ∀ {q m}, ld.cluster.heap q = some m → (∀ {p n}, done p → s.heap p = some n → n.name ≠ m.name) →
    bare m = createClusterNode m.name .none
  owned : ∀ {j p}, s.slots j = some p → done p → SameName s ld.cluster (some p) (ld.cluster.slots j)
  unowned : ∀ {j}, (∀ p, s.slots j = some p → ¬ done p) → ld.cluster.slots j = none
  marked : done s.myself → ∀ j, SameName s ld.cluster (s.migratingSlotsTo j) (ld.cluster.migratingSlotsTo j) ∧
    SameName s ld.cluster (s.importingSlotsFrom j) (ld.cluster.importingSlotsFrom j)
  unmarked : ¬ done s.myself → ∀ j, ld.cluster.migratingSlotsTo j = none ∧ ld.cluster.importingSlotsFrom j = none
  own : done s.myself → SameName s ld.cluster (some s.myself) ld.myself
  strange : ¬ done s.myself → ld.myself = none
  epochs : epochs ld = (0,0)

section
variable {s : ClusterState} {done : NodePtr → Prop} {ld next : Loading}

theorem readStart (s : ClusterState) (noRedirection allowReplicaMigration : Bool) :
    Read s (fun _ => False) ⟨emptyState noRedirection allowReplicaMigration,none,0⟩ := by
  refine ⟨formedEmpty _ _,fun here => ?_,fun none => none.elim,fun here => ?_,fun _ none => none.elim,fun _ => rfl,
    fun none => none.elim,fun _ _ => ⟨rfl,rfl⟩,fun none => none.elim,fun _ => rfl,rfl⟩
  · cases here
  · cases here

/-- A node that is only mentioned. -/
theorem Read.mentioned (read : Read s done ld) (grown : Extends (Shown s) (fun _ => False) ld next)
    (quiet : Quiet ld next) :
    Read s done next := by
  refine ⟨grown.formed,fun {q m} here => ?_,fun did found => ?_,fun {q m} here other => ?_,fun owner did => ?_,
    fun free => ?_,fun did j => ?_,fun not_ j => ?_,fun did => ?_,fun not_ => ?_,quiet.epochs.trans read.epochs⟩
  · cases before : ld.cluster.heap q with
    | none => exact (grown.born here before).1
    | some k =>
      obtain ⟨l,there,name,_⟩ := grown.kept before
      obtain rfl := Option.some.inj (there.symm.trans here)
      rw [name]
      exact read.known before
  · obtain ⟨q,m,here,matched⟩ := read.matched did found
    obtain ⟨k,there,name,same⟩ := grown.kept here
    exact ⟨q,k,there,matched.carried name (same id) grown.sameName⟩
  · cases before : ld.cluster.heap q with
    | none => exact (grown.born here before).2
    | some k =>
      obtain ⟨l,there,name,same⟩ := grown.kept before
      obtain rfl := Option.some.inj (there.symm.trans here)
      rw [name] at other ⊢
      exact (same id).trans (read.blank before other)
  · rw [quiet.slots]
    exact grown.sameName (read.owned owner did)
  · rw [quiet.slots]
    exact read.unowned free
  · rw [quiet.migrating,quiet.importing]
    exact ⟨grown.sameName (read.marked did j).1,grown.sameName (read.marked did j).2⟩
  · rw [quiet.migrating,quiet.importing]
    exact read.unmarked not_ j
  · rw [quiet.myself]
    exact grown.sameName (read.own did)
  · rw [quiet.myself]
    exact read.strange not_

/-- The slots and the markers of one line. -/
theorem wordsRead (sound : Sound s) (textual : Textual s) {source p : NodePtr} {n m : ClusterNode}
    (found : s.heap source = some n) {ranges : List (Nat × Nat)} (covers : Covers s source 16384 ranges)
    (formed : Formed ld) (here : ld.cluster.heap p = some m)
    (unmarked : source = s.myself → ∀ j, ld.cluster.migratingSlotsTo j = none ∧
      ld.cluster.importingSlotsFrom j = none) :
    ∃ next, (ranges.map rangeText ++ ownWords s n).foldlM (readSlots p) ld = .ok next ∧
      Extends (Shown s) (fun _ => False) ld next ∧ epochs next = epochs ld ∧ next.myself = ld.myself ∧
      (∀ j, s.slots j = some source → next.cluster.slots j = some ((ld.cluster.slots j).getD p)) ∧
      (∀ j, s.slots j ≠ some source → next.cluster.slots j = ld.cluster.slots j) ∧
      (source = s.myself → ∀ j, SameName s next.cluster (s.migratingSlotsTo j) (next.cluster.migratingSlotsTo j) ∧
        SameName s next.cluster (s.importingSlotsFrom j) (next.cluster.importingSlotsFrom j)) ∧
      (source ≠ s.myself → next.cluster.migratingSlotsTo = ld.cluster.migratingSlotsTo ∧
        next.cluster.importingSlotsFrom = ld.cluster.importingSlotsFrom) := by
  obtain ⟨mid,ran,grown,owns⟩ := @rangesRead (Shown s) ld p m formed here ranges covers.inside
  have mine (j : Slot) : j.val ∈ ranges.flatMap span ↔ s.slots j = some source := by
    rw [covers.exact_,ownedBelow,List.mem_filter,List.mem_range,decide_eq_true_eq,slotAt,dif_pos j.isLt]
    exact ⟨fun both => both.2,fun owner => ⟨j.isLt,owner⟩⟩
  by_cases me : source = s.myself
  · have words : ownWords s n = allSlots.filterMap (markerWord s) := if_pos ((sound.me found).mpr me)
    have named (j : Slot) : Named s (Shown s) j := fun q marker => by
      obtain ⟨k,there,shown⟩ := sound.markers marker
      obtain ⟨long,plain,_⟩ := textual.names there
      exact ⟨k,there,long,plain.zeroFree,q,k,there,shown,rfl⟩
    have none (j : Slot) : mid.cluster.migratingSlotsTo j = none ∧ mid.cluster.importingSlotsFrom j = none := by
      rw [owns.migrating,owns.importing]
      exact unmarked me j
    obtain ⟨last,marked,more,marks⟩ := markersRead (p := p) grown.formed none named sound.apart
    refine ⟨last,?_,grown.trans (fun _ none => none.elim) more,marks.epochs.trans owns.epochs,
      marks.myself.trans owns.myself,fun j owner => ?_,fun j other => ?_,
      fun _ j => ⟨marks.migrating j trivial,marks.importing j trivial⟩,fun other => absurd me other⟩
    · rw [words,List.foldlM_append,ran,valueBind,marked]
    · rw [marks.slots]
      exact owns.taken j ((mine j).mpr owner)
    · rw [marks.slots]
      exact owns.left j fun inside => other ((mine j).mp inside)
  · have words : ownWords s n = [] := if_neg fun own => me ((sound.me found).mp own)
    refine ⟨mid,by rw [words,List.append_nil,ran],grown,owns.epochs,owns.myself,fun j owner => ?_,fun j other => ?_,
      fun same => absurd same me,fun _ => ⟨owns.migrating,owns.importing⟩⟩
    · exact owns.taken j ((mine j).mpr owner)
    · exact owns.left j fun inside => other ((mine j).mp inside)

/-- The line of one node more. -/
theorem nodeRead (sound : Sound s) (textual : Textual s) {source : NodePtr} {n : ClusterNode}
    (found : s.heap source = some n) (shown : n.flags.handshake = false) {ranges : List (Nat × Nat)}
    (covers : Covers s source 16384 ranges) (read : Read s done ld) (fresh : ¬ done source) :
    ∃ next, readNode ld n.name (addressWord n) (representClusterNodeFlags n.flags) (masterWord s n)
        (decimal (epochOf s n)) (ranges.map rangeText ++ ownWords s n) = .ok next ∧
      Read s (fun q => done q ∨ q = source) next := by
  obtain ⟨first,p,m,looked,here,name,grownFirst,quiet⟩ :=
    nodeOfSpec read.formed (textual.names found).1 (show Shown s n.name from ⟨source,n,found,shown,rfl⟩) [0]
  have start := read.mentioned grownFirst quiet
  have apart {q : NodePtr} {k : ClusterNode} (did : done q) (there : s.heap q = some k) : k.name ≠ n.name := fun same =>
    fresh (sound.unique found there same ▸ did)
  have blank : bare m = createClusterNode m.name .none := start.blank here fun did there => name ▸ apart did there
  have strange : n.flags.myself = true → first.myself = none := fun own =>
    start.strange fun did => fresh ((sound.me found).mp own ▸ did)
  obtain ⟨mid,filledRan,filled⟩ := fieldsRead sound textual found start.formed here name blank strange
  obtain ⟨l,at_,matched⟩ := filled.matched
  have unmarked : source = s.myself → ∀ j, mid.cluster.migratingSlotsTo j = none ∧
      mid.cluster.importingSlotsFrom j = none := by
    intro me j
    rw [filled.migrating,filled.importing]
    exact start.unmarked (fun did => fresh (me ▸ did)) j
  obtain ⟨next,ran,more,sameEpochs,sameMyself,taken,left,marked,kept⟩ :=
    wordsRead sound textual found covers filled.grown.formed at_ unmarked
  have alive : ∀ q, q = p → (first.cluster.heap q).isSome := fun q mine => by rw [mine,here]; rfl
  have grown : Extends (Shown s) (· = p) first next := filled.grown.trans alive more.weaken
  obtain ⟨k,final,lastName,lastSame⟩ := more.kept at_
  have ownName : k.name = n.name := lastName.trans matched.name
  have matchedLast : Matches s next.cluster n k := matched.carried lastName (lastSame id) more.sameName
  have elsewhere {q : NodePtr} {j : ClusterNode} (there : first.cluster.heap q = some j) (other : j.name ≠ n.name) :
      q ≠ p := fun same => by
    rw [same,here] at there
    exact other (Option.some.inj there ▸ name)
  refine ⟨next,?_,more.formed,fun {q j} there => ?_,fun {q j} did there => ?_,fun {q j} there other => ?_,
    fun {j q} owner did => ?_,fun {j} free => ?_,fun did j => ?_,fun other j => ?_,fun did => ?_,fun other => ?_,?_⟩
  · rw [readNode,looked,valueBind]
    change readFields p first _ _ _ _ >>= _ = _
    rw [filledRan,valueBind,ran]
  · cases before : first.cluster.heap q with
    | none => exact (grown.born there before).1
    | some i =>
      obtain ⟨l,now,same,_⟩ := grown.kept before
      obtain rfl := Option.some.inj (now.symm.trans there)
      rw [same]
      exact start.known before
  · rcases did with early | rfl
    · obtain ⟨r,i,now,matchedEarly⟩ := start.matched early there
      have other : i.name ≠ n.name := by
        rw [matchedEarly.name]
        exact apart early there
      obtain ⟨h,later,same,still⟩ := grown.kept now
      exact ⟨r,h,later,matchedEarly.carried same (still (elsewhere now other)) grown.sameName⟩
    · obtain rfl := Option.some.inj (found.symm.trans there)
      exact ⟨p,k,final,matchedLast⟩
  · cases before : first.cluster.heap q with
    | none => exact (grown.born there before).2
    | some i =>
      obtain ⟨l,now,same,still⟩ := grown.kept before
      obtain rfl := Option.some.inj (now.symm.trans there)
      have strangeName : i.name ≠ n.name := fun clash => other (.inr rfl) found (by rw [same,clash])
      rw [still (elsewhere before strangeName),same]
      exact start.blank before fun did found' clash => other (.inl did) found' (by rw [same,clash])
  · by_cases mine : q = source
    · subst mine
      have free : mid.cluster.slots j = none := by
        rw [filled.slots]
        exact start.unowned fun r same did => fresh (Option.some.inj (owner.symm.trans same) ▸ did)
      rw [taken j owner,free,Option.getD_none]
      exact .named found final ownName
    · have other : s.slots j ≠ some source := fun same => mine (Option.some.inj (owner.symm.trans same))
      rw [left j other,filled.slots]
      exact grown.sameName (start.owned owner (did.resolve_right mine))
  · have other : s.slots j ≠ some source := fun same => free source same (.inr rfl)
    rw [left j other,filled.slots]
    exact start.unowned fun r same did => free r same (.inl did)
  · by_cases me : source = s.myself
    · exact marked me j
    · have did : done s.myself := did.resolve_right fun same => me same.symm
      rw [(kept me).1,(kept me).2,filled.migrating,filled.importing]
      exact ⟨grown.sameName (start.marked did j).1,grown.sameName (start.marked did j).2⟩
  · rw [not_or] at other
    have me : source ≠ s.myself := fun same => other.2 same.symm
    rw [(kept me).1,(kept me).2,filled.migrating,filled.importing]
    exact start.unmarked other.1 j
  · rw [sameMyself,filled.myself]
    by_cases me : source = s.myself
    · rw [if_pos ((sound.me found).mpr me),← me]
      exact .named found final ownName
    · rw [if_neg fun own => me ((sound.me found).mp own)]
      exact grown.sameName (start.own (did.resolve_right fun same => me same.symm))
  · rw [not_or] at other
    rw [sameMyself,filled.myself,if_neg fun own => other.2 ((sound.me found).mp own).symm]
    exact start.strange other.1
  · exact sameEpochs.trans (filled.epochs.trans start.epochs)

end

section
variable {s : ClusterState}

theorem headPlain {first : Bytes} {others : List Bytes} (plain : Plain first) (filled : first ≠ []) :
    ¬ ((joined first others ++ [10]).headD 0 = 10 ∨ (joined first others ++ [10]).headD 0 = 0) := by
  obtain ⟨c,tail,rfl⟩ := List.exists_cons_of_ne_nil filled
  obtain ⟨_,zero,_,_,_,newline,_⟩ := plainOf (plain c List.mem_cons_self)
  rw [joined,List.cons_append,List.cons_append,List.headD_cons,not_or]
  exact ⟨newline,zero⟩

theorem nameNotVars {name : NodeName} (plain : Plain name) (long : name.length = 40) :
    strcasecmpEqual name textVars = false := by
  rw [strcasecmpEqual,decide_eq_false_iff_not,cstrZeroFree plain.zeroFree]
  intro same
  have sizes := congrArg List.length same
  rw [List.length_map,List.length_map,long] at sizes
  exact absurd sizes (by decide)

theorem lineRead (sound : Sound s) (textual : Textual s) {p : NodePtr} {n : ClusterNode} (found : s.heap p = some n)
    (beat : Beat) (ranges : List (Nat × Nat)) (ld : Loading) :
    readLine ld (joined n.name (nodeWords s beat ranges n) ++ [10]) =
      readNode ld n.name (addressWord n) (representClusterNodeFlags n.flags) (masterWord s n) (decimal (epochOf s n))
        (ranges.map rangeText ++ ownWords s n) := by
  have words := wordsPlain sound textual found beat ranges
  obtain ⟨long,plain,_⟩ := textual.names found
  have other := nameNotVars plain long
  rw [readLine,if_neg (headPlain (words _ List.mem_cons_self).1 (words _ List.mem_cons_self).2),splitJoined words]
  simp only [other,Bool.false_eq_true,if_false]
  rfl

theorem varsShape (first a x b y : Bytes) :
    first ++ 32 :: a ++ 32 :: x ++ 32 :: b ++ 32 :: y = joined first [a,x,b,y] := by simp [joined]

theorem varsWords (s : ClusterState) : varsText s =
    joined textVars [textCurrentEpoch,decimal s.currentEpoch,textLastVoteEpoch,decimal s.lastVoteEpoch] :=
  varsShape _ _ _ _ _

theorem varsPlain (s : ClusterState) : ∀ word ∈ textVars ::
    [textCurrentEpoch,decimal s.currentEpoch,textLastVoteEpoch,decimal s.lastVoteEpoch], Plain word ∧ word ≠ [] :=
  List.forall_mem_cons.mpr ⟨⟨by decide,by decide⟩,List.forall_mem_cons.mpr ⟨⟨by decide,by decide⟩,
    List.forall_mem_cons.mpr ⟨⟨plainDecimal _,decimalFilled _⟩,List.forall_mem_cons.mpr ⟨⟨by decide,by decide⟩,
      List.forall_mem_singleton.mpr ⟨plainDecimal _,decimalFilled _⟩⟩⟩⟩⟩

theorem varsRead (sound : Sound s) (ld : Loading) : readLine ld (varsText s ++ [10]) = .ok { ld with
    cluster := { ld.cluster with currentEpoch := s.currentEpoch, lastVoteEpoch := s.lastVoteEpoch } } := by
  have words := varsPlain s
  have own : strcasecmpEqual textVars textVars = true := by decide
  have current : strcasecmpEqual textCurrentEpoch textCurrentEpoch = true := by decide
  have vote : strcasecmpEqual textLastVoteEpoch textCurrentEpoch = false := by decide
  have last : strcasecmpEqual textLastVoteEpoch textLastVoteEpoch = true := by decide
  rw [varsWords,readLine,if_neg (headPlain (words _ List.mem_cons_self).1 (words _ List.mem_cons_self).2),
    splitJoined words]
  simp only [own,if_true,List.length_cons,List.length_nil,readVars,current,vote,last,Bool.false_eq_true,if_false,
    strtoullDecimal sound.wide.1,strtoullDecimal sound.wide.2]
  rfl

theorem paddingRead (ld : Loading) (k : Nat) : (List.replicate k [10]).foldlM readLine ld = .ok ld := by
  induction k with
  | zero => rfl
  | succ k ih =>
    have blank : readLine ld [10] = .ok ld := by rw [readLine,if_pos (.inl rfl)]
    rw [List.replicate_succ,List.foldlM_cons,blank,valueBind,ih]

/-- The lines of the nodes, one after the other. -/
theorem linesRead (sound : Sound s) (textual : Textual s) (beats : NodePtr → Beat) {ranges : NodePtr → List (Nat × Nat)}
    (covers : ∀ p n, s.heap p = some n → n.flags.handshake = false → Covers s p 16384 (ranges p))
    {entries : List TableEntry} (distinct : (entries.map TableEntry.node).Nodup)
    (written : ∀ e ∈ entries, ∃ n, s.heap e.node = some n ∧ n.flags.handshake = false) {done : NodePtr → Prop}
    (fresh : ∀ e ∈ entries, ¬ done e.node) {ld : Loading} (read : Read s done ld) :
    ∃ next, (entries.map fun e => lineOf s beats ranges e ++ [10]).foldlM readLine ld = .ok next ∧
      Read s (fun p => done p ∨ p ∈ entries.map TableEntry.node) next := by
  induction entries generalizing done ld with
  | nil => exact ⟨ld,rfl,by simpa using read⟩
  | cons e rest ih =>
    obtain ⟨n,found,shown⟩ := written e List.mem_cons_self
    obtain ⟨apart,distinct⟩ := List.nodup_cons.mp distinct
    obtain ⟨mid,ran,after⟩ := nodeRead sound textual found shown (covers e.node n found shown) read
      (fresh e List.mem_cons_self)
    have line : lineOf s beats ranges e = joined n.name (nodeWords s (beats e.node) (ranges e.node) n) := by
      rw [lineOf,found,Option.elim_some]
    obtain ⟨next,later,final⟩ := ih distinct (fun f inside => written f (List.mem_cons_of_mem _ inside))
      (fun f inside did => did.elim (fresh f (List.mem_cons_of_mem _ inside))
        fun same => apart (List.mem_map.mpr ⟨f,inside,same⟩)) after
    refine ⟨next,?_,?_⟩
    · rw [List.map_cons,List.foldlM_cons,line,lineRead sound textual found,ran,valueBind,later]
    · have same : (fun p => (done p ∨ p = e.node) ∨ p ∈ rest.map TableEntry.node) =
          fun p => done p ∨ p ∈ (e :: rest).map TableEntry.node := by
        funext p
        rw [List.map_cons,List.mem_cons,or_assoc]
      rw [same] at final
      exact final

theorem shownEntries (sound : Sound s) (order : IterOrder TableEntry) (p : NodePtr) :
    p ∈ (shown order s).map TableEntry.node ↔ ∃ n, s.heap p = some n ∧ n.flags.handshake = false := by
  rw [List.mem_map]
  constructor
  · intro ⟨e,inside,same⟩
    rw [shown,List.mem_filter,Option.any_eq_true] at inside
    obtain ⟨_,n,found,quiet⟩ := inside
    exact ⟨n,same ▸ found,by simpa using quiet⟩
  · intro ⟨n,found,quiet⟩
    refine ⟨⟨n.name,p⟩,?_,rfl⟩
    rw [shown,List.mem_filter,(order.perm _).mem_iff]
    exact ⟨sound.listed.listed found,by simp [found,quiet]⟩

theorem shownDistinct (sound : Sound s) (order : IterOrder TableEntry) : ((shown order s).map TableEntry.node).Nodup :=
  (nodesDistinct sound.listed order).sublist (List.filter_sublist.map TableEntry.node)

/-- What was saved, as one text of lines and its padding. -/
theorem savedText (sound : Sound s) (order : IterOrder TableEntry) (beats : NodePtr → Beat) (size : Nat) :
    ∃ ranges k, (∀ p n, s.heap p = some n → n.flags.handshake = false → Covers s p 16384 (ranges p)) ∧
      clusterSaveConfig order s beats size = .ok
        ((((shown order s).map (lineOf s beats ranges) ++ [varsText s]).flatMap fun line => line ++ [10]) ++
          List.replicate k 10) := by
  obtain ⟨ranges,covers,described⟩ := descriptionLines sound.table sound.listed sound.mentioned order beats
  have shape : (((shown order s).map (lineOf s beats ranges) ++ [varsText s]).flatMap fun line => line ++ [10]) =
      ((shown order s).flatMap fun e => lineOf s beats ranges e ++ [10]) ++ varsText s ++ [10] := by
    rw [List.flatMap_append,List.flatMap_map,List.flatMap_singleton,List.append_assoc _ (varsText s)]
  refine ⟨ranges,
    size - (((shown order s).flatMap fun e => lineOf s beats ranges e ++ [10]) ++ varsText s ++ [10]).length,
    covers,?_⟩
  rw [clusterSaveConfig,described,valueBind,shape]

theorem joinedOneLine {first : Bytes} {others : List Bytes}
    (plain : ∀ word ∈ first :: others, Plain word ∧ word ≠ []) : 10 ∉ joined first others := by
  intro inside
  rw [joined,List.mem_append,List.mem_flatMap] at inside
  rcases inside with here | ⟨word,member,there⟩
  · exact (plainOf ((plain first List.mem_cons_self).1 10 here)).2.2.2.2.2.1 rfl
  · rcases List.mem_cons.mp there with same | there
    · exact absurd same (by decide)
    · exact (plainOf ((plain word (List.mem_cons_of_mem _ member)).1 10 there)).2.2.2.2.2.1 rfl

theorem savedLines (sound : Sound s) (textual : Textual s) (order : IterOrder TableEntry) (beats : NodePtr → Beat)
    {ranges : NodePtr → List (Nat × Nat)}
    (covers : ∀ p n, s.heap p = some n → n.flags.handshake = false → Covers s p 16384 (ranges p)) :
    ∀ line ∈ (shown order s).map (lineOf s beats ranges) ++ [varsText s], 10 ∉ line ∧ line.length ≤ maxRoom := by
  refine List.forall_mem_append.mpr ⟨fun line inside => ?_,List.forall_mem_singleton.mpr ⟨?_,?_⟩⟩
  · obtain ⟨e,member,rfl⟩ := List.mem_map.mp inside
    obtain ⟨n,found,quiet⟩ := (shownEntries sound order e.node).mp (List.mem_map_of_mem member)
    rw [lineOf,found,Option.elim_some]
    exact ⟨joinedOneLine (wordsPlain sound textual found _ _),
      lineShort sound textual found _ (covers e.node n found quiet)⟩
  · rw [varsWords]
    exact joinedOneLine (varsPlain s)
  · have current : (decimal s.currentEpoch).length ≤ 20 := decimalLength (by decide) (by have := sound.wide.1; omega)
    have vote : (decimal s.lastVoteEpoch).length ≤ 20 := decimalLength (by decide) (by have := sound.wide.2; omega)
    have short : ∀ word ∈ [textCurrentEpoch,decimal s.currentEpoch,textLastVoteEpoch,decimal s.lastVoteEpoch],
        word.length ≤ 20 :=
      List.forall_mem_cons.mpr ⟨by decide,List.forall_mem_cons.mpr ⟨current,List.forall_mem_cons.mpr ⟨by decide,
        List.forall_mem_singleton.mpr vote⟩⟩⟩
    have spread := spreadLength short
    rw [varsWords,joined,List.length_append]
    have first : textVars.length = 4 := rfl
    have four : [textCurrentEpoch,decimal s.currentEpoch,textLastVoteEpoch,decimal s.lastVoteEpoch].length = 4 := rfl
    rw [four] at spread
    rw [first,maxRoom]
    omega

/-- The state `t` says of the nodes of `s` that are written, and of their slots and markers,
what `s` says. -/
structure Restored (s t : ClusterState) : Prop where
  nodes : ∀ name, (clusterLookupNode t name).isSome = true ↔ Shown s name
  records : ∀ p n, s.heap p = some n → n.flags.handshake = false →
    ∃ q m, clusterLookupNode t n.name = some q ∧ t.heap q = some m ∧ Matches s t n m
  masters : ∀ p n q m, s.heap p = some n → n.flags.handshake = false → n.flags.slave = false →
    t.heap q = some m → m.name = n.name → m.configEpoch = n.configEpoch
  owners : ∀ j p n, s.slots j = some p → s.heap p = some n → n.flags.handshake = false →
    SameName s t (some p) (t.slots j)
  unowned : ∀ j, (∀ p n, s.slots j = some p → s.heap p = some n → n.flags.handshake = true) → t.slots j = none
  migrating : ∀ j, SameName s t (s.migratingSlotsTo j) (t.migratingSlotsTo j)
  importing : ∀ j, SameName s t (s.importingSlotsFrom j) (t.importingSlotsFrom j)
  myself : SameName s t (some s.myself) (some t.myself)
  currentEpoch : t.currentEpoch = s.currentEpoch
  lastVoteEpoch : t.lastVoteEpoch = s.lastVoteEpoch
  table : Agreed t
  listed : Listed t

theorem formedLookup {ld : Loading} (formed : Formed ld) {q : NodePtr} {m : ClusterNode}
    (here : ld.cluster.heap q = some m) : clusterLookupNode ld.cluster m.name = some q := by
  rw [clusterLookupNode,Dict.findIff.mpr ⟨formed.listed here,rfl⟩]
  rfl

theorem loadText {text : Bytes} (filled : text ≠ []) (noRedirection allowReplicaMigration : Bool) :
    clusterLoadConfig noRedirection allowReplicaMigration (some text) =
      ((linesOf maxRoom text).foldlM readLine ⟨emptyState noRedirection allowReplicaMigration,none,0⟩ >>= fun ld =>
        match ld.myself with
        | none => .error .fmterr
        | some p =>
          let s := { ld.cluster with myself := p }
          .ok (some { s with currentEpoch := max s.currentEpoch (clusterGetMaxEpoch s) })) := by
  cases text with
  | nil => contradiction
  | cons c rest => rfl

theorem maxEpochLe {t : ClusterState} {bound : Nat} (own : t.currentEpoch ≤ bound)
    (all : ∀ {q m}, t.heap q = some m → m.configEpoch ≤ bound) : clusterGetMaxEpoch t ≤ bound := by
  have walk : ∀ (entries : List TableEntry) (best : Nat), best ≤ bound →
      entries.foldl (fun best e => max best ((t.heap e.node).elim 0 ClusterNode.configEpoch)) best ≤ bound := by
    intro entries
    induction entries with
    | nil => exact fun best small => small
    | cons e rest ih =>
      intro best small
      refine ih _ (max_le small ?_)
      cases found : t.heap e.node with
      | none => exact Nat.zero_le _
      | some m => exact all found
  exact walk _ _ own

/-- All lines are read: what stands then is what was written. -/
theorem restoredRead (sound : Sound s) {done : NodePtr → Prop}
    (whole : ∀ p, done p ↔ ∃ n, s.heap p = some n ∧ n.flags.handshake = false) {ld : Loading} (read : Read s done ld)
    {p : NodePtr} (own : ld.myself = some p) :
    Restored s { ld.cluster with myself := p, currentEpoch := s.currentEpoch, lastVoteEpoch := s.lastVoteEpoch } := by
  obtain ⟨me,mine,quiet⟩ := sound.listed.me
  have self := read.own ((whole s.myself).mpr ⟨me,mine,quiet⟩)
  have marked := read.marked ((whole s.myself).mpr ⟨me,mine,quiet⟩)
  rw [own] at self
  have unique {q r : NodePtr} {m k : ClusterNode} (left : ld.cluster.heap q = some m)
      (right : ld.cluster.heap r = some k)
      (same : k.name = m.name) : r = q := read.formed.apart left right same
  refine ⟨fun name => ⟨fun found => ?_,fun written => ?_⟩,fun q n found shown => ?_,
    fun q n r m found shown plain here same => ?_,
    fun j q n owner found shown => ?_,fun j free => ?_,fun j => (marked j).1.heap rfl,fun j => (marked j).2.heap rfl,
    self.heap rfl,rfl,rfl,⟨read.formed.table.agree,read.formed.table.counted,read.formed.table.owned⟩,
    read.formed.live,read.formed.listed,?_⟩
  · obtain ⟨q,looked⟩ := Option.isSome_iff_exists.mp found
    obtain ⟨m,here,rfl⟩ := lookupFound read.formed looked
    exact read.known here
  · obtain ⟨q,n,found,shown,rfl⟩ := written
    obtain ⟨r,m,here,matched⟩ := read.matched ((whole q).mpr ⟨n,found,shown⟩) found
    have looked := formedLookup read.formed here
    rw [matched.name] at looked
    exact Option.isSome_iff_exists.mpr ⟨r,looked⟩
  · obtain ⟨r,m,here,matched⟩ := read.matched ((whole q).mpr ⟨n,found,shown⟩) found
    have looked := formedLookup read.formed here
    rw [matched.name] at looked
    exact ⟨r,m,looked,here,matched.carried rfl rfl fun same => same.heap rfl⟩
  · obtain ⟨i,k,there,matched⟩ := read.matched ((whole q).mpr ⟨n,found,shown⟩) found
    obtain rfl := unique there here (same.trans matched.name.symm)
    obtain rfl := Option.some.inj (there.symm.trans here)
    rw [matched.epoch,epochOf]
    split
    · rw [if_neg (by simp [plain])]
    · rfl
  · exact (read.owned owner ((whole q).mpr ⟨n,found,shown⟩)).heap rfl
  · refine read.unowned fun q owner did => ?_
    obtain ⟨n,found,shown⟩ := (whole q).mp did
    have hidden := free q n owner found
    rw [shown] at hidden
    contradiction
  · cases self with
    | named left right name =>
      obtain ⟨q,m,here,matched⟩ := read.matched ((whole s.myself).mpr ⟨me,mine,quiet⟩) mine
      obtain rfl := Option.some.inj (mine.symm.trans left)
      obtain rfl := unique here right (name.trans matched.name.symm)
      refine ⟨m,here,?_⟩
      have same : (shownFlags m.flags).handshake = (shownFlags me.flags).handshake := by rw [matched.flags]
      exact same.trans quiet

/-- The text is loaded, and it restores the state. -/
theorem reloaded (sound : Sound s) (textual : Textual s) {order : IterOrder TableEntry} {beats : NodePtr → Beat}
    {size : Nat} {text : Bytes} (written : clusterSaveConfig order s beats size = .ok text)
    (noRedirection allowReplicaMigration : Bool) :
    ∃ t, clusterLoadConfig noRedirection allowReplicaMigration (some text) = .ok (some t) ∧ Restored s t := by
  obtain ⟨ranges,k,covers,saved⟩ := savedText sound order beats size
  obtain rfl := Except.ok.inj (saved.symm.trans written)
  obtain ⟨ld,ran,read⟩ := linesRead sound textual beats covers (shownDistinct sound order)
    (fun e inside => (shownEntries sound order e.node).mp (List.mem_map_of_mem inside)) (fun _ _ => id)
    (readStart s noRedirection allowReplicaMigration)
  have whole (p : NodePtr) : (False ∨ p ∈ (shown order s).map TableEntry.node) ↔
      ∃ n, s.heap p = some n ∧ n.flags.handshake = false := by rw [false_or,shownEntries sound order]
  obtain ⟨me,mine,quiet⟩ := sound.listed.me
  have known := read.own ((whole s.myself).mpr ⟨me,mine,quiet⟩)
  obtain ⟨p,own⟩ : ∃ p, ld.myself = some p := by
    cases at_ : ld.myself with
    | none => rw [at_] at known; cases known
    | some p => exact ⟨p,rfl⟩
  have epochs {q : NodePtr} {m : ClusterNode} (here : ld.cluster.heap q = some m) : m.configEpoch ≤ s.currentEpoch := by
    obtain ⟨r,n,found,shown,name⟩ := read.known here
    obtain ⟨i,l,there,matched⟩ := read.matched ((whole r).mpr ⟨n,found,shown⟩) found
    obtain rfl := read.formed.apart there here (name.symm.trans matched.name.symm)
    obtain rfl := Option.some.inj (there.symm.trans here)
    rw [matched.epoch]
    exact sound.epochOf found
  refine ⟨_,?_,restoredRead sound whole read own⟩
  have lines := linesText (savedLines sound textual order beats covers) k
  rw [loadText (by simp),lines,List.map_append,List.map_map,List.foldlM_append,List.foldlM_append]
  have nodes : ((shown order s).map ((fun line => line ++ [10]) ∘ lineOf s beats ranges)).foldlM readLine
      ⟨emptyState noRedirection allowReplicaMigration,none,0⟩ = .ok ld := ran
  rw [nodes,valueBind,List.map_singleton,List.foldlM_cons,varsRead sound,valueBind,List.foldlM_nil]
  change (List.replicate k [10]).foldlM readLine _ >>= _ = _
  rw [paddingRead,valueBind]
  simp only [own]
  have top : max s.currentEpoch (clusterGetMaxEpoch { ld.cluster with
      myself := p, currentEpoch := s.currentEpoch, lastVoteEpoch := s.lastVoteEpoch }) = s.currentEpoch :=
    max_eq_left (maxEpochLe (Nat.le_refl _) epochs)
  rw [top]

theorem saves (sound : Sound s) (order : IterOrder TableEntry) (beats : NodePtr → Beat) (size : Nat) :
    ∃ text, clusterSaveConfig order s beats size = .ok text := by
  obtain ⟨_,_,_,saved⟩ := savedText sound order beats size
  exact ⟨_,saved⟩

end

/-- Whatever the order of the dictionary and the size of the old file, the text that is saved
is loaded, and restores the nodes outside handshake with their slots, the markers and the epochs. -/
theorem configRestored (s : ClusterState) (sound : Sound s) (textual : Textual s) (order : IterOrder TableEntry)
    (beats : NodePtr → Beat) (size : Nat) (noRedirection allowReplicaMigration : Bool) :
    ∃ text, clusterSaveConfig order s beats size = .ok text ∧
      ∃ t, clusterLoadConfig noRedirection allowReplicaMigration (some text) = .ok (some t) ∧ Restored s t := by
  obtain ⟨text,written⟩ := saves sound order beats size
  exact ⟨text,written,reloaded sound textual written noRedirection allowReplicaMigration⟩

def slotFive : Slot := ⟨5,by decide⟩

/-- The server with an address, and a node that owns slot 5; it is in handshake, or the slot is imported from it. -/
def firstNode (ip : Bytes) : ClusterNode :=
  { createClusterNode (List.replicate 40 97) { NodeFlags.none with myself := true, master := true } with
    configEpoch := 3, ip := ip, port := 6379, cport := 16379 }

def secondNode (hidden : Bool) : ClusterNode :=
  { createClusterNode (List.replicate 40 98) { NodeFlags.none with master := !hidden, handshake := hidden } with
    configEpoch := 2, slots := bitmapSetBit emptyBitmap slotFive, numslots := 1, port := 6380, cport := 16380 }

def twoNodes (hidden : Bool) (ip : Bytes) : ClusterState :=
  { emptyState false true with
    currentEpoch := 4, lastVoteEpoch := 1
    nodes := ⟨[⟨List.replicate 40 97,0⟩,⟨List.replicate 40 98,1⟩],by decide⟩
    heap := fun p => if p = 0 then some (firstNode ip) else if p = 1 then some (secondNode hidden) else none
    slots := fun j => if j = slotFive then some 1 else none
    importingSlotsFrom := fun j => if j = slotFive ∧ hidden = false then some 1 else none }

theorem twoNodesHeap {hidden : Bool} {ip : Bytes} {p : NodePtr} {n : ClusterNode}
    (found : (twoNodes hidden ip).heap p = some n) : p = 0 ∧ n = firstNode ip ∨ p = 1 ∧ n = secondNode hidden := by
  simp only [twoNodes] at found
  split at found
  · exact .inl ⟨‹_›,(Option.some.inj found).symm⟩
  · split at found
    · exact .inr ⟨‹_›,(Option.some.inj found).symm⟩
    · contradiction

theorem twoNodesSound (hidden : Bool) (ip : Bytes) : Sound (twoNodes hidden ip) := by
  have first : (twoNodes hidden ip).heap 0 = some (firstNode ip) := rfl
  have second : (twoNodes hidden ip).heap 1 = some (secondNode hidden) := rfl
  have absent : bitmapTestBit (emptyBitmap : Bitmap 16384) slotFive = false := testEmpty _
  have table : Agreed (twoNodes hidden ip) := by
    refine ⟨fun {p n} found j => ?_,fun {p n} found => ?_,fun {j p} owner => ?_⟩
    · rcases twoNodesHeap found with ⟨rfl,rfl⟩ | ⟨rfl,rfl⟩
      · simp [twoNodes,firstNode,createClusterNode]
      · simp [twoNodes,secondNode,createClusterNode]
    · rcases twoNodesHeap found with ⟨rfl,rfl⟩ | ⟨rfl,rfl⟩
      · simp [firstNode,createClusterNode,bitsEmpty]
      · simp only [secondNode,cardSet absent,bitsEmpty]
        rfl
    · have mine : p = 1 := by
        simp only [twoNodes] at owner
        split at owner
        · exact (Option.some.inj owner).symm
        · contradiction
      rw [mine,second]
      rfl
  have listed : Listed (twoNodes hidden ip) := by
    refine ⟨fun e inside => ?_,fun {p n} found => ?_,firstNode ip,first,rfl⟩
    · rcases List.mem_cons.mp inside with rfl | rest
      · exact ⟨_,first,rfl⟩
      · rw [List.mem_singleton.mp rest]
        exact ⟨_,second,rfl⟩
    · rcases twoNodesHeap found with ⟨rfl,rfl⟩ | ⟨rfl,rfl⟩
      · exact List.mem_cons_self
      · exact List.mem_cons_of_mem _ List.mem_cons_self
  refine ⟨table,listed,fun {p n} found => ?_,fun j => .inl rfl,fun {j q} marker => ?_,fun {p n q} found master => ?_,
    fun {p n} found => ?_,(by decide : 4 < 2 ^ 64),(by decide : 1 < 2 ^ 64)⟩
  · rcases twoNodesHeap found with ⟨rfl,rfl⟩ | ⟨rfl,rfl⟩
    · exact ⟨fun _ => rfl,fun _ => rfl⟩
    · exact ⟨fun own => by contradiction,fun same => by contradiction⟩
  · rcases marker with migrating | importing
    · contradiction
    · simp only [twoNodes] at importing
      split at importing
      · rename_i both
        rw [← Option.some.inj importing]
        exact ⟨_,second,both.2⟩
      · contradiction
  · rcases twoNodesHeap found with ⟨rfl,rfl⟩ | ⟨rfl,rfl⟩ <;> contradiction
  · rcases twoNodesHeap found with ⟨rfl,rfl⟩ | ⟨rfl,rfl⟩
    · change 3 ≤ 4; decide
    · change 2 ≤ 4; decide

theorem twoNodesTextual (hidden : Bool) {ip : Bytes} (plain : Plain ip) (fits : ip.length < 46) :
    Textual (twoNodes hidden ip) := by
  have firstName : Plain (List.replicate 40 97) ∧ (List.replicate 40 (97 : UInt8)).head? ≠ some 45 := by decide
  have secondName : Plain (List.replicate 40 98) ∧ (List.replicate 40 (98 : UInt8)).head? ≠ some 45 := by decide
  have none : Plain [] := fun _ inside => absurd inside List.not_mem_nil
  refine ⟨fun {p n} found => ?_,fun {p n} found => ?_⟩
  · rcases twoNodesHeap found with ⟨rfl,rfl⟩ | ⟨rfl,rfl⟩
    · exact ⟨rfl,firstName⟩
    · exact ⟨rfl,secondName⟩
  · rcases twoNodesHeap found with ⟨rfl,rfl⟩ | ⟨rfl,rfl⟩
    · exact ⟨plain,fits,(by decide : 6379 < 2 ^ 32),(by decide : 16379 < 2 ^ 32)⟩
    · exact ⟨none,(by decide : 0 < 46),(by decide : 6380 < 2 ^ 32),(by decide : 16380 < 2 ^ 32)⟩

def quietBeat : Beat := ⟨0,0,0,false,by decide,by decide⟩

def localAddress : Bytes := [49,50,55,46,48,46,48,46,49]

theorem configRestoredShown : ∃ text, clusterSaveConfig .asStored (twoNodes false localAddress) (fun _ => quietBeat) 0 =
    .ok text ∧ ∃ t, clusterLoadConfig false true (some text) = .ok (some t) ∧
      Restored (twoNodes false localAddress) t :=
  configRestored _ (twoNodesSound false _) (twoNodesTextual false (by decide) (by decide)) _ _ _ _ _

/-- An address with a blank in it, and one of the same length that a line can hold. -/
def blankAddress : Bytes := [97,32,98]

def likeAddress : Bytes := [97,45,98]

theorem addressSplit (name rest : Bytes) (words : List Bytes) :
    joined name ((blankAddress ++ rest) :: words) = joined name ([97] :: (98 :: rest) :: words) := by
  simp [joined,blankAddress]

/-- The line with the blank ends the loading: what stands before the blank has no port. -/
theorem blankStops (name rest : Bytes) (words : List Bytes) (long : name.length = 40)
    (plain : ∀ word ∈ name :: [97] :: (98 :: rest) :: words, Plain word ∧ word ≠ []) (many : 5 ≤ words.length)
    (noRedirection allowReplicaMigration : Bool) :
    readLine ⟨emptyState noRedirection allowReplicaMigration,none,0⟩
      (joined name ((blankAddress ++ rest) :: words) ++ [10]) = .error .fmterr := by
  obtain ⟨own,filled⟩ := plain name List.mem_cons_self
  have other := nameNotVars own long
  obtain ⟨mid,p,m,looked,_⟩ := @nodeOfSpec (fun _ => True) _ (formedEmpty noRedirection allowReplicaMigration) name long
    trivial [0]
  match words,many with
  | a :: b :: c :: d :: e :: slots,_ =>
    rw [addressSplit,readLine,if_neg (headPlain own filled),splitJoined plain]
    simp only [other,Bool.false_eq_true,if_false,readNode,looked,valueBind]
    rfl

def laterWords (ip : Bytes) (beat : Beat) (ranges : List (Nat × Nat)) : List Bytes :=
  [representClusterNodeFlags (firstNode ip).flags,masterWord (twoNodes false ip) (firstNode ip),
    signedDecimal beat.pingSent,signedDecimal beat.pongReceived,decimal (epochOf (twoNodes false ip) (firstNode ip)),
    linkWord beat (firstNode ip)] ++ (ranges.map rangeText ++ ownWords (twoNodes false ip) (firstNode ip))

def portsText : Bytes := 58 :: portText 6379 ++ 64 :: portText 16379

theorem twoNodesWords (ip : Bytes) (beat : Beat) (ranges : List (Nat × Nat)) :
    nodeWords (twoNodes false ip) beat ranges (firstNode ip) =
      addressWord (firstNode ip) :: laterWords ip beat ranges := by
  rw [nodeWords,laterWords,List.cons_append]

theorem twoNodesAddress {ip : Bytes} (free : ZeroFree ip) : addressWord (firstNode ip) = ip ++ portsText := by
  have own : cstr (firstNode ip).ip = ip := cstrZeroFree free
  rw [addressWord,own,List.append_assoc]
  rfl

theorem laterSame (beat : Beat) (ranges : List (Nat × Nat)) :
    laterWords blankAddress beat ranges = laterWords likeAddress beat ranges := by
  have names : nameAt (twoNodes false blankAddress) = nameAt (twoNodes false likeAddress) := by
    funext p
    simp only [nameAt,twoNodes]
    split
    · rfl
    · rfl
  have markers : markerWord (twoNodes false blankAddress) = markerWord (twoNodes false likeAddress) := by
    funext j
    rw [markerWord,markerWord,names]
    rfl
  have own : ownWords (twoNodes false blankAddress) (firstNode blankAddress) =
      ownWords (twoNodes false likeAddress) (firstNode likeAddress) := by
    rw [ownWords,ownWords,markers]
    rfl
  rw [laterWords,laterWords,own]
  rfl

/-- The server with the blank saves a text that it cannot load. -/
theorem blankUnloaded (beats : NodePtr → Beat) (size : Nat) (noRedirection allowReplicaMigration : Bool) {text : Bytes}
    (written : clusterSaveConfig .asStored (twoNodes false blankAddress) beats size = .ok text) :
    clusterLoadConfig noRedirection allowReplicaMigration (some text) = .error .fmterr := by
  obtain ⟨ranges,k,covers,saved⟩ := savedText (twoNodesSound false blankAddress) .asStored beats size
  obtain rfl := Except.ok.inj (saved.symm.trans written)
  have sound := twoNodesSound false likeAddress
  have textual : Textual (twoNodes false likeAddress) := twoNodesTextual false (by decide) (by decide)
  have found : (twoNodes false likeAddress).heap 0 = some (firstNode likeAddress) := rfl
  have words := wordsPlain sound textual found (beats 0) (ranges 0)
  rw [twoNodesWords,twoNodesAddress (by decide)] at words
  have plain : ∀ word ∈ List.replicate 40 97 :: [97] :: (98 :: portsText) ::
      laterWords likeAddress (beats 0) (ranges 0),
      Plain word ∧ word ≠ [] := by
    obtain ⟨name,later⟩ := List.forall_mem_cons.mp words
    obtain ⟨address,later⟩ := List.forall_mem_cons.mp later
    refine List.forall_mem_cons.mpr ⟨name,List.forall_mem_cons.mpr ⟨⟨by decide,by decide⟩,
      List.forall_mem_cons.mpr ⟨⟨?_,List.cons_ne_nil _ _⟩,later⟩⟩⟩
    intro c inside
    rcases List.mem_cons.mp inside with rfl | rest
    · decide
    · exact address.1 c (List.mem_append_right _ rest)
  have cover : Covers (twoNodes false likeAddress) 0 16384 (ranges 0) := by
    have blank := covers 0 (firstNode blankAddress) rfl rfl
    have same : slotAt (twoNodes false likeAddress) = slotAt (twoNodes false blankAddress) := rfl
    refine ⟨?_,blank.inside⟩
    rw [blank.exact_,ownedBelow,ownedBelow,same]
  have line : lineOf (twoNodes false blankAddress) beats ranges ⟨List.replicate 40 97,0⟩ =
      joined (List.replicate 40 97) ((blankAddress ++ portsText) :: laterWords likeAddress (beats 0) (ranges 0)) := by
    rw [← laterSame,← twoNodesAddress (by decide),← twoNodesWords]
    rfl
  have oneLine := joinedOneLine plain
  rw [← addressSplit] at oneLine
  have fits : (joined (List.replicate 40 97)
      ((blankAddress ++ portsText) :: laterWords likeAddress (beats 0) (ranges 0))).length ≤ maxRoom := by
    have short := lineShort sound textual found (beats 0) cover
    rw [twoNodesWords,twoNodesAddress (by decide)] at short
    exact short
  obtain ⟨rest,first⟩ : ∃ rest, (((shown .asStored (twoNodes false blankAddress)).map
      (lineOf (twoNodes false blankAddress) beats ranges) ++ [varsText (twoNodes false blankAddress)]).flatMap
        fun line => line ++ [10]) ++ List.replicate k 10 = joined (List.replicate 40 97)
          ((blankAddress ++ portsText) :: laterWords likeAddress (beats 0) (ranges 0)) ++ 10 :: rest := by
    have entries : shown .asStored (twoNodes false blankAddress) =
        [⟨List.replicate 40 97,0⟩,⟨List.replicate 40 98,1⟩] := rfl
    rw [entries,List.map_cons,line,List.cons_append,List.flatMap_cons,List.append_assoc,List.append_assoc]
    exact ⟨_,rfl⟩
  have many : 5 ≤ (laterWords likeAddress (beats 0) (ranges 0)).length := by
    rw [laterWords,List.length_append]
    exact Nat.le_add_right_of_le (Nat.le_succ 5)
  rw [first,loadText (by simp),linesCons oneLine fits,List.foldlM_cons,blankStops _ _ _ rfl plain many]
  rfl

/-- A slot of a node in handshake comes back without its owner, and a blank in an address
makes a text that is not loaded at all. -/
theorem configNotRestored :
    (¬ ∀ (s : ClusterState) (order : IterOrder TableEntry) (beats : NodePtr → Beat) (size : Nat)
      (noRedirection allowReplicaMigration : Bool) (text : Bytes), Sound s → Textual s →
      clusterSaveConfig order s beats size = .ok text →
      ∃ t, clusterLoadConfig noRedirection allowReplicaMigration (some text) = .ok (some t) ∧
        ∀ j p, s.slots j = some p → SameName s t (some p) (t.slots j)) ∧
    (¬ ∀ (s : ClusterState) (order : IterOrder TableEntry) (beats : NodePtr → Beat) (size : Nat)
      (noRedirection allowReplicaMigration : Bool) (text : Bytes), Sound s →
      (∀ j p n, s.slots j = some p → s.heap p = some n → n.flags.handshake = false) →
      clusterSaveConfig order s beats size = .ok text →
      ∃ t, clusterLoadConfig noRedirection allowReplicaMigration (some text) = .ok (some t)) := by
  constructor
  · intro claimed
    have sound := twoNodesSound true localAddress
    have textual : Textual (twoNodes true localAddress) := twoNodesTextual true (by decide) (by decide)
    obtain ⟨text,written⟩ := saves sound .asStored (fun _ => quietBeat) 0
    obtain ⟨t,loaded,owners⟩ := claimed _ .asStored (fun _ => quietBeat) 0 false true text sound textual written
    obtain ⟨u,again,restored⟩ := reloaded sound textual written false true
    obtain rfl := Option.some.inj (Except.ok.inj (again.symm.trans loaded))
    have owner : (twoNodes true localAddress).slots slotFive = some 1 := rfl
    have free : u.slots slotFive = none := by
      refine restored.unowned slotFive fun p n same found => ?_
      obtain rfl := Option.some.inj (owner.symm.trans same)
      obtain rfl := Option.some.inj ((rfl : (twoNodes true localAddress).heap 1 =
          some (secondNode true)).symm.trans found)
      rfl
    have kept := owners slotFive 1 owner
    rw [free] at kept
    cases kept
  · intro claimed
    have sound := twoNodesSound false blankAddress
    obtain ⟨text,written⟩ := saves sound .asStored (fun _ => quietBeat) 0
    have outside : ∀ j p n, (twoNodes false blankAddress).slots j = some p →
        (twoNodes false blankAddress).heap p = some n → n.flags.handshake = false := by
      intro j p n _ found
      rcases twoNodesHeap found with ⟨rfl,rfl⟩ | ⟨rfl,rfl⟩ <;> rfl
    obtain ⟨t,loaded⟩ := claimed _ .asStored (fun _ => quietBeat) 0 false true text sound outside written
    exact absurd ((blankUnloaded _ _ _ _ written).symm.trans loaded) (by simp)

end HpuCache.ConfigTrip
