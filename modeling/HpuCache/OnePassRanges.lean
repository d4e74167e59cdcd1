import HpuCache.ConfigText
import HpuCache.RunScan
import HpuCache.SlotInvariant

/-! The slot ranges of all nodes written in one pass over the owners, against the ranges that the
loop over the bitmap of one node writes. Both are the runs of the slots of that node. -/
namespace HpuCache.OnePassRanges
open BitArray ByteText EventRun FaultRun KeyedDict KeySlot NodePackets NodeTable SlotCommands SlotTable SlotInvariant
open TextLines ConfigSave ConfigText RunScan

variable {s : ClusterState} {filter : NodeFlags → Bool}

def rangesText (ranges : List (Nat × Nat)) : Bytes := ranges.flatMap fun range => 32 :: rangeText range

section bitmap
variable {own : Nat → Bool}

/-- One turn of the loop over a bitmap whose last slot is `last`. -/
def bitStep (last : Nat) (own : Nat → Bool) (st : Option Nat × Bytes) (i : Nat) : Option Nat × Bytes :=
  match (if own i then st.1.or (some i) else st.1) with
  | none => st
  | some start =>
    if !own i || i = last then
      let past := if own i && i = last then i + 1 else i
      (none,st.2 ++ 32 :: rangeText (start,past - 1))
    else (some start,st.2)

theorem rangesMore (ranges : List (Nat × Nat)) (range : Nat × Nat) :
    rangesText (ranges ++ [range]) = rangesText ranges ++ 32 :: rangeText range := by
  simp [rangesText]

theorem bitBelow {last k : Nat} (below : k ≤ last) :
    (List.range k).foldl (bitStep last own) (none,[]) = ((scan own k).start,rangesText (scan own k).closed) := by
  induction k with
  | zero => rfl
  | succ k ih =>
    have inner : ¬ k = last := by omega
    rw [List.range_succ,List.foldl_append,ih (by omega),List.foldl_cons,List.foldl_nil,bitStep]
    cases mine : own k with
    | true =>
      rw [scanOwn mine]
      cases (scan own k).start <;> simp [inner]
    | false =>
      cases before : (scan own k).start with
      | none => simp [scanOther mine before,before]
      | some start => simp [scanClose mine before,rangesMore]

/-- The last slot closes its run itself. -/
theorem bitAll (last : Nat) :
    (List.range (last + 1)).foldl (bitStep last own) (none,[]) = (none,rangesText (runs own (last + 1))) := by
  rw [List.range_succ,List.foldl_append,bitBelow (Nat.le_refl last),List.foldl_cons,List.foldl_nil,bitStep,runs]
  cases mine : own last with
  | true =>
    rw [scanOwn mine]
    cases (scan own last).start <;> simp [rangesMore]
  | false =>
    cases before : (scan own last).start with
    | none => simp [scanOther mine before,before]
    | some start => simp [scanClose mine before,rangesMore]

theorem bitmapFold (n : ClusterNode) (same : ∀ j : Slot, own j.val = bitmapTestBit n.slots j) :
    bitmapRanges n = (none,rangesText (runs own 16384)) := by
  refine Eq.trans ?_ (bitAll 16383)
  rw [← List.map_coe_finRange_eq_range,List.foldl_map,bitmapRanges]
  refine List.foldl_ext _ _ _ fun st j _ => ?_
  have bit := same j
  rw [bitStep]
  generalize own j.val = mine at bit ⊢
  subst bit
  rfl

/-- The text of the loop over a bitmap, which is not run for a node without slots. -/
theorem bitmapText (table : Agreed s) {p : NodePtr} {n : ClusterNode} (found : s.heap p = some n) :
    slotsText n none = rangesText (runs (owns s p) 16384) := by
  have same : ∀ j : Slot, owns s p j.val = bitmapTestBit n.slots j := by
    intro j
    rw [Bool.eq_iff_iff,← table.agree found j,owns,decide_eq_true_eq,slotAt,dif_pos j.isLt]
  rw [slotsText]
  split
  · rw [bitmapFold n same]
  · rename_i empty
    have none_ : runs (owns s p) 16384 = [] := by
      refine runsNone.mpr fun i below => ?_
      rw [same ⟨i,below⟩]
      refine Bool.eq_false_iff.mpr fun bit => empty ?_
      rw [table.counted found,Int.natCast_pos]
      exact Finset.card_pos.mpr ⟨⟨i,below⟩,memBits.mpr bit⟩
    rw [none_]
    rfl

end bitmap

section release
variable {beats : NodePtr → Beat} {usePport : Bool}

/-- Whatever is written, the texts of the entries that were met are gone. -/
theorem releasedAfter (entries : List TableEntry) {st last : Bytes × (NodePtr → Option Bytes)}
    (shown : ∀ e ∈ entries, ∃ n, s.heap e.node = some n ∧ (filter n.flags = true → st.2 e.node = none))
    (ran : entries.foldlM (descriptionStep s beats filter usePport) st = .ok last) :
    ∀ p, last.2 p = if p ∈ entries.map TableEntry.node then none else st.2 p := by
  induction entries generalizing st with
  | nil =>
    obtain rfl := Except.ok.inj ran
    simp
  | cons e rest ih =>
    rw [List.foldlM_cons,bindOk] at ran
    obtain ⟨mid,stepped,ran⟩ := ran
    obtain ⟨n,found,quiet⟩ := shown e List.mem_cons_self
    have step : ∀ p, mid.2 p = if p = e.node then none else st.2 p := by
      simp only [descriptionStep,ClusterState.deref,found,bind,Except.bind] at stepped
      intro p
      split at stepped
      · rename_i hidden
        obtain rfl := Except.ok.inj stepped
        split
        · rename_i here
          rw [here,quiet hidden]
        · rfl
      · split at stepped <;> try contradiction
        obtain rfl := Except.ok.inj stepped
        dsimp only
        split
        · rename_i here
          rw [here,Function.update_self]
        · rename_i other
          rw [Function.update_of_ne other]
    have later : ∀ f ∈ rest, ∃ m, s.heap f.node = some m ∧ (filter m.flags = true → mid.2 f.node = none) := by
      intro f inside
      obtain ⟨m,there,bare⟩ := shown f (List.mem_cons_of_mem _ inside)
      refine ⟨m,there,fun hidden => ?_⟩
      rw [step,bare hidden,ite_self]
    intro p
    rw [ih later ran p,step p]
    by_cases here : p = e.node
    · simp [here]
    · simp [here]

theorem describes (live : Mentioned s) {p : NodePtr} {n : ClusterNode} (found : s.heap p = some n)
    (slotsInfo : NodePtr → Option Bytes) :
    ∃ text, clusterGenNodeDescription s beats usePport slotsInfo p = .ok text := by
  simp only [clusterGenNodeDescription,ClusterState.deref,found,masterSpec live found,epochSpec live found,
    markersWords live,bind,Except.bind]
  split <;> exact ⟨_,rfl⟩

theorem writesAll (live : Mentioned s) {entries : List TableEntry}
    (known : ∀ e ∈ entries, ∃ n, s.heap e.node = some n) (st : Bytes × (NodePtr → Option Bytes)) :
    ∃ written, entries.foldlM (descriptionStep s beats filter usePport) st = .ok written := by
  have ends : Ends (fun _ => False) (fun _ => True) (entries.foldlM (descriptionStep s beats filter usePport) st) := by
    refine foldKept (fun st e inside _ => ?_) trivial
    obtain ⟨n,found⟩ := known e inside
    obtain ⟨text,described⟩ := @describes s beats usePport live _ n found st.2
    simp only [descriptionStep,ClusterState.deref,found,described,bind,Except.bind]
    split <;> trivial
  obtain ⟨written,done,_⟩ := endsTotal.mp ends
  exact ⟨written,done⟩

end release

/-- The one pass leaves with every node that is shown the text of its own loop, and nothing with a
node without slots. When the description has been written nothing is left with any node, and it is
written wherever the pointers of the state are live. -/
theorem onePassRanges (table : Agreed s) (listed : Listed s) (filter : NodeFlags → Bool)
    (order : IterOrder TableEntry) (beats : NodePtr → Beat) (usePport : Bool) :
    ∃ slotsInfo, clusterGenNodesSlotsInfo s filter = .ok slotsInfo ∧
      (∀ p n, s.heap p = some n → filter n.flags = false →
        (slotsInfo p).getD [] = slotsText n none ∧ (slotsInfo p = none ↔ ∀ j, s.slots j ≠ some p)) ∧
      (∀ written, (order.arrange s.nodes.entries).foldlM (descriptionStep s beats filter usePport) ([],slotsInfo) =
          .ok written →
        clusterGenNodesDescription order s beats filter usePport = .ok written.1 ∧ ∀ p, written.2 p = none) ∧
      (Mentioned s → ∃ written,
        (order.arrange s.nodes.entries).foldlM (descriptionStep s beats filter usePport)
          ([],slotsInfo) = .ok written) := by
  obtain ⟨slotsInfo,ran,texts,quiet⟩ := passRuns table filter
  have met {e : TableEntry} (inside : e ∈ order.arrange s.nodes.entries) : ∃ n, s.heap e.node = some n := by
    obtain ⟨n,found,_⟩ := listed.live e ((order.perm _).mem_iff.mp inside)
    exact ⟨n,found⟩
  refine ⟨slotsInfo,ran,fun p n found shown => ⟨?_,?_⟩,fun written wrote => ⟨?_,fun p => ?_⟩,
    fun live => writesAll live (fun e inside => met inside) _⟩
  · rw [texts p n found shown,infoTextGetD,bitmapText table found,rangesText]
  · have free : runs (owns s p) 16384 = [] ↔ ∀ j, s.slots j ≠ some p := by
      rw [runsNone]
      constructor
      · intro none_ j owner
        exact of_decide_eq_false (none_ j.val j.isLt) (by rw [slotAt,dif_pos j.isLt]; exact owner)
      · intro none_ i below
        refine decide_eq_false fun owner => none_ ⟨i,below⟩ ?_
        rwa [slotAt,dif_pos below] at owner
    rw [texts p n found shown,← free,infoText]
    split <;> simp_all
  · rw [clusterGenNodesDescription,ran,valueBind,wrote]
    rfl
  · have shown : ∀ e ∈ order.arrange s.nodes.entries, ∃ n, s.heap e.node = some n ∧
        (filter n.flags = true → slotsInfo e.node = none) := by
      intro e inside
      obtain ⟨n,found⟩ := met inside
      refine ⟨n,found,fun hidden => quiet e.node fun m there => ?_⟩
      rwa [← Option.some.inj (found.symm.trans there)]
    rw [releasedAfter _ shown wrote p]
    split
    · rfl
    · rename_i absent
      refine quiet p fun n found => absurd ?_ absent
      exact List.mem_map.mpr ⟨⟨n.name,p⟩,(order.perm _).mem_iff.mpr (listed.listed found),rfl⟩

section shared

/-- Two masters that know each other, the owners of the slots, and no slot on its way. -/
structure Shared (owner : Slot → Option NodePtr) (s : ClusterState) : Prop where
  table : Agreed s
  slots : s.slots = owner
  still : ∀ j, s.migratingSlotsTo j = none ∧ s.importingSlotsFrom j = none
  first : clusterLookupNode s [97] = some 0
  second : clusterLookupNode s [98] = some 1
  myself : s.myself = 0
  me : ∃ n, s.heap 0 = some n ∧ n.flags.slave = false ∧ n.flags.handshake = false
  other : ∃ n, s.heap 1 = some n ∧ n.flags.handshake = false

/-- A slot is given to the second node or to the first one. -/
def gift (g : Slot × Bool) : Event := .setslot (some g.1) (.node (if g.2 then [98] else [97]))

def givenTo (b : Bool) : NodePtr := if b then 1 else 0

def giftOwner (gifts : List (Slot × Bool)) : Slot → Option NodePtr :=
  gifts.foldr (fun g owner => Function.update owner g.1 (some (givenTo g.2))) fun _ => none

/-- The nodes meet, and then the slots are given. -/
def giftRun (gifts : List (Slot × Bool)) : List Event :=
  gifts.map gift ++ [.config (plainHeader [98]) firstPong,.meet 1 [120] [] 7000 17000]

theorem sharedGift {owner : Slot → Option NodePtr} (shared : Shared owner s) (g : Slot × Bool) :
    ∃ t, Steps s (gift g) t ∧ Shared (Function.update owner g.1 (some (givenTo g.2))) t := by
  obtain ⟨table,slots,still,first,second,myself,⟨n,me,master,shown⟩,m,other,shown'⟩ := shared
  obtain ⟨j,b⟩ := g
  have live : (s.heap (givenTo b)).isSome := by cases b <;> simp [givenTo,me,other]
  obtain ⟨t,assigned,rest,nodes,table'⟩ := endsTotal.mp (@reassignEnds (fun _ => False) s table _ live j)
  have known : clusterLookupNode s (if b then [98] else [97]) = some (givenTo b) := by cases b <;> simpa [givenTo]
  have importing : t.importingSlotsFrom j = none := by rw [rest]; exact (still j).2
  refine ⟨t,?_,table',?_,?_,?_,?_,?_,?_,?_⟩
  · simp [Steps,step,gift,setslot,setslotNode,ClusterState.deref,myself,me,master,known,still j,assigned,importing,bind,
      Except.bind,pure,Except.pure]
  · rw [rest,slots]
  · rw [rest]
    exact still
  · rw [rest]
    exact first
  · rw [rest]
    exact second
  · rw [rest]
    exact myself
  · obtain ⟨n',there,alike⟩ := nodes.node me
    exact ⟨n',there,(ofUnbound alike fun n => n.flags.slave).trans master,
      (ofUnbound alike fun n => n.flags.handshake).trans shown⟩
  · obtain ⟨m',there,alike⟩ := nodes.node other
    exact ⟨m',there,(ofUnbound alike fun n => n.flags.handshake).trans shown'⟩

/-- Whatever slots are given to the two nodes, they get them. -/
theorem sharedRun (gifts : List (Slot × Bool)) :
    ∃ s, Reach Steps (clusterInit 0 [97]) (giftRun gifts) s ∧ Shared (giftOwner gifts) s := by
  induction gifts with
  | nil =>
    have first : Reach Steps (clusterInit 0 [97]) [.meet 1 [120] [] 7000 17000] _ := .next .start rfl
    have second := first.next (show Steps _ (.config (plainHeader [98]) firstPong) _ from rfl)
    exact ⟨_,second,(runSound second).1,rfl,fun _ => ⟨rfl,rfl⟩,rfl,rfl,rfl,⟨_,rfl,rfl,rfl⟩,_,rfl,rfl⟩
  | cons g gifts ih =>
    obtain ⟨s,run,shared⟩ := ih
    obtain ⟨t,taken,later⟩ := sharedGift shared g
    exact ⟨t,run.next taken,later⟩

/-- Slots 0, 2 and 3 are those of one node, 1 and the last one those of the other. -/
def gifts : List (Slot × Bool) := [(16383,true),(3,false),(2,false),(1,true),(0,false)]

theorem giftOwners (shared : Shared (giftOwner gifts) s) :
    owns s 0 = (fun i => decide (i ∈ [0,2,3])) ∧
      owns s 1 = fun i => decide (i ∈ [1,16383]) := by
  constructor
  all_goals
    funext i
    rw [owns,decide_eq_decide,slotAt,shared.slots]
    simp only [giftOwner,gifts,List.foldr,Function.update_apply,Fin.ext_iff,givenTo,List.mem_cons,List.not_mem_nil,or_false]
    split <;> grind

theorem firstRuns : runs (fun i => decide (i ∈ [0,2,3])) 16384 = [(0,0),(2,3)] := by
  have start : scan (fun i => decide (i ∈ [0,2,3])) 5 = ⟨none,[(0,0),(2,3)]⟩ := rfl
  have gap := @scanGap (fun i => decide (i ∈ [0,2,3])) 5 16384 (by rw [start]) (by decide) fun i late below => by
    simp only [List.mem_cons,List.not_mem_nil,or_false,decide_eq_false_iff_not]
    omega
  rw [runs,gap,start]

/-- The last slot is open at the end of the scan. -/
theorem secondRuns : runs (fun i => decide (i ∈ [1,16383])) 16384 = [(1,1),(16383,16383)] := by
  have start : scan (fun i => decide (i ∈ [1,16383])) 3 = ⟨none,[(1,1)]⟩ := rfl
  have gap := @scanGap (fun i => decide (i ∈ [1,16383])) 3 16383 (by rw [start]) (by decide) fun i late below => by
    simp only [List.mem_cons,List.not_mem_nil,or_false,decide_eq_false_iff_not]
    omega
  have final : ∀ past, past = 16383 + 1 → scan (fun i => decide (i ∈ [1,16383])) past = ⟨some 16383,[(1,1)]⟩ := by
    rintro _ rfl
    rw [scanOwn (by decide),gap,start]
    rfl
  rw [runs,final 16384 rfl]
  rfl

/-- One node has 0, 2 and 3, the other 1 and the last slot: " 0 2-3" and " 1 16383". -/
theorem onePassRangesShown : ∃ s slotsInfo n m, Reach Steps (clusterInit 0 [97]) (giftRun gifts) s ∧
    clusterGenNodesSlotsInfo s NodeFlags.handshake = .ok slotsInfo ∧ s.heap 0 = some n ∧ s.heap 1 = some m ∧
    (slotsInfo 0).getD [] = slotsText n none ∧ slotsText n none = [32,48,32,50,45,51] ∧
    (slotsInfo 1).getD [] = slotsText m none ∧ slotsText m none = [32,49,32,49,54,51,56,51] := by
  obtain ⟨s,run,shared⟩ := sharedRun gifts
  obtain ⟨firstOwns,secondOwns⟩ := giftOwners shared
  obtain ⟨n,found,_,shown⟩ := shared.me
  obtain ⟨m,found',shown'⟩ := shared.other
  obtain ⟨table,listed⟩ := runSound run
  obtain ⟨slotsInfo,ran,texts,_⟩ := onePassRanges table listed NodeFlags.handshake .asStored
    (fun _ => ⟨0,0,0,false,by decide,by decide⟩) false
  refine ⟨s,slotsInfo,n,m,run,ran,found,found',(texts 0 n found shown).1,?_,(texts 1 m found' shown').1,?_⟩
  · rw [bitmapText table found,firstOwns,firstRuns]
    decide
  · rw [bitmapText table found',secondOwns,secondRuns]
    decide

end shared

end HpuCache.OnePassRanges
