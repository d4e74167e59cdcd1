import HpuCache.ConfigSave
import HpuCache.RunScan

/-! The text of the configuration as words. Every line is the words of one node with a blank
before each; the ranges of a node cover the slots that it owns, each once and in order. -/
namespace HpuCache.ConfigText
open BitArray ByteText FaultRun KeyedDict KeySlot NodeTable SlotTable TextLines ConfigSave RunScan

variable {s : ClusterState} {filter : NodeFlags → Bool}

def ownedBelow (s : ClusterState) (p : NodePtr) (k : Nat) : List Nat :=
  (List.range k).filter fun i => slotAt s i = some p

def span (range : Nat × Nat) : List Nat := List.range' range.1 (range.2 + 1 - range.1)

def infoText (ranges : List (Nat × Nat)) : Option Bytes :=
  if ranges = [] then none else some (ranges.flatMap fun range => 32 :: rangeText range)

theorem infoTextGetD (ranges : List (Nat × Nat)) :
    (infoText ranges).getD [] = ranges.flatMap fun range => 32 :: rangeText range := by
  rw [infoText]
  split
  · rename_i empty
    rw [empty]
    rfl
  · rfl

/-- The ranges that stand for the slots of one node below a bound. -/
structure Covers (s : ClusterState) (p : NodePtr) (k : Nat) (ranges : List (Nat × Nat)) : Prop where
  exact_ : ranges.flatMap span = ownedBelow s p k
  inside : ∀ range ∈ ranges, range.1 ≤ range.2 ∧ range.2 < 16384

def owns (s : ClusterState) (p : NodePtr) (i : Nat) : Bool := decide (slotAt s i = some p)

theorem liveOwner (table : Agreed s) {i : Nat} {p : NodePtr} (owner : slotAt s i = some p) :
    ∃ n, s.heap p = some n := by
  rw [slotAt] at owner
  split at owner
  · exact Option.isSome_iff_exists.mp (table.owned owner)
  · contradiction

section pass

/-- Where the pass stands: the node it is in has its run open, and the closed runs of every node
that is shown are in its text. -/
structure Tracked (s : ClusterState) (filter : NodeFlags → Bool) (i : Nat) (st : InfoScan) : Prop where
  opened : ∀ p, (scan (owns s p) i).start = if st.node = some p then some st.start else none
  texts : ∀ p n, s.heap p = some n → filter n.flags = false → st.slotsInfo p = infoText (scan (owns s p) i).closed
  quiet : ∀ p, (∀ n, s.heap p = some n → filter n.flags = true) → st.slotsInfo p = none

variable {st : InfoScan} {i : Nat} {p : NodePtr}

theorem Tracked.alone (tracked : Tracked s filter i st) (now : st.node = some p) {q : NodePtr} (other : q ≠ p) :
    (scan (owns s q) i).start = none := by
  rw [tracked.opened q,now,if_neg fun same => other (Option.some.inj same).symm]

theorem Tracked.current (tracked : Tracked s filter i st) (now : st.node = some p) :
    (scan (owns s p) i).start = some st.start := by
  rw [tracked.opened p,if_pos now]

theorem Tracked.live (table : Agreed s) (tracked : Tracked s filter i st) (now : st.node = some p) :
    ∃ n, s.heap p = some n :=
  liveOwner table (of_decide_eq_true (scanOpen (tracked.current now)).2)

theorem closedSame (idle : ∀ start, (scan (owns s p) i).start = some start → slotAt s i = some p) :
    (scan (owns s p) (i + 1)).closed = (scan (owns s p) i).closed := by
  cases mine : owns s p i with
  | true => rw [scanOwn mine]
  | false =>
    cases before : (scan (owns s p) i).start with
    | none => rw [scanOther mine before]
    | some start => exact absurd (idle start before) (of_decide_eq_false mine)

/-- Where the pass changes its node, the next run starts at this slot. -/
theorem startNext (idle : slotAt s i = some p → (scan (owns s p) i).start = none) :
    (scan (owns s p) (i + 1)).start = if slotAt s i = some p then some i else none := by
  split
  · rename_i mine
    rw [scanOwn (decide_eq_true mine),idle mine]
    rfl
  · rename_i other
    exact scanLast.mpr (decide_eq_false other)

theorem nextBelow (st : InfoScan) (below : i < 16384) : st.next s i = { st with node := slotAt s i, start := i } := by
  rw [InfoScan.next,if_neg (Nat.ne_of_lt below)]

/-- The text of the node whose run ends gets that run. -/
theorem infoMore (st : InfoScan) (p : NodePtr) {ranges : List (Nat × Nat)} (text : st.slotsInfo p = infoText ranges)
    (range : Nat × Nat) :
    some ((st.slotsInfo p).getD [] ++ 32 :: rangeText range) = infoText (ranges ++ [range]) := by
  rw [text,infoTextGetD,infoText,if_neg (by simp),List.flatMap_append]
  simp

theorem infoStepTracked (table : Agreed s) (below : i < 16384) (tracked : Tracked s filter i st) :
    ∃ next, infoStep s filter st i = .ok next ∧ Tracked s filter (i + 1) next := by
  rw [infoStep]
  split
  · rename_i idle
    have none_ : ∀ p, (scan (owns s p) i).start = none := fun p => by rw [tracked.opened p,idle]; rfl
    rw [nextBelow st below]
    refine ⟨_,rfl,fun p => startNext fun _ => none_ p,fun p n found shown => ?_,tracked.quiet⟩
    rw [closedSame fun start run => absurd ((none_ p).symm.trans run) nofun]
    exact tracked.texts p n found shown
  · rename_i p now
    by_cases same : slotAt s i = some p
    · rw [if_neg (by rw [same]; simp [Nat.ne_of_lt below])]
      refine ⟨st,rfl,fun q => ?_,fun q n found shown => ?_,tracked.quiet⟩
      · by_cases mine : q = p
        · subst mine
          rw [scanOwn (decide_eq_true same),tracked.current now,if_pos now]
          rfl
        · have other : slotAt s i ≠ some q := fun h => mine (Option.some.inj (h.symm.trans same))
          rw [scanLast.mpr (decide_eq_false other),now,if_neg fun h => mine (Option.some.inj h).symm]
      · rw [closedSame fun start run => ?_]
        · exact tracked.texts q n found shown
        · by_contra other
          exact nomatch (tracked.alone now fun h : q = p => other (h ▸ same)).symm.trans run
    · obtain ⟨n,found⟩ := tracked.live table now
      have apart : ∀ q, slotAt s i = some q → (scan (owns s q) i).start = none := fun q mine =>
        tracked.alone now fun h : q = p => same (h ▸ mine)
      have still : ∀ q, q ≠ p → (scan (owns s q) (i + 1)).closed = (scan (owns s q) i).closed := fun q other =>
        closedSame fun start run => absurd ((tracked.alone now other).symm.trans run) nofun
      rw [if_pos (.inr fun h => same h.symm)]
      simp only [ClusterState.deref,found,bind,Except.bind]
      split
      · rename_i hidden
        rw [nextBelow st below]
        refine ⟨_,rfl,fun q => startNext (apart q),fun q m at_ shown => ?_,tracked.quiet⟩
        have other : q ≠ p := by
          rintro rfl
          obtain rfl := Option.some.inj (at_.symm.trans found)
          rw [shown] at hidden
          contradiction
        rw [still q other]
        exact tracked.texts q m at_ shown
      · rename_i seen
        rw [nextBelow _ below]
        refine ⟨_,rfl,fun q => startNext (apart q),fun q m at_ shown => ?_,fun q gone => ?_⟩
        · by_cases mine : q = p
          · subst mine
            dsimp only
            rw [Function.update_self,scanClose (decide_eq_false same) (tracked.current now)]
            exact infoMore st q (tracked.texts q m at_ shown) (st.start,i - 1)
          · dsimp only
            rw [Function.update_of_ne mine,still q mine]
            exact tracked.texts q m at_ shown
        · have other : q ≠ p := by
            rintro rfl
            exact seen (gone n found)
          exact (Function.update_of_ne other _ _).trans (tracked.quiet q gone)

theorem passTracked (table : Agreed s) {k : Nat} (below : k ≤ 16384) :
    ∃ st, (List.range k).foldlM (infoStep s filter) ⟨none,0,fun _ => none⟩ = .ok st ∧ Tracked s filter k st := by
  induction k with
  | zero => exact ⟨_,rfl,fun _ => rfl,fun _ _ _ _ => rfl,fun _ _ => rfl⟩
  | succ k ih =>
    obtain ⟨st,ran,tracked⟩ := ih (Nat.le_of_succ_le below)
    obtain ⟨next,stepped,after⟩ := infoStepTracked table (Nat.lt_of_succ_le below) tracked
    refine ⟨next,?_,after⟩
    rw [List.range_succ,List.foldlM_append,ran]
    simp only [bind,Except.bind,List.foldlM_cons,stepped,List.foldlM_nil]
    rfl

/-- The turn behind the last slot closes the run that is still open. -/
theorem passRuns (table : Agreed s) (filter : NodeFlags → Bool) :
    ∃ slotsInfo, clusterGenNodesSlotsInfo s filter = .ok slotsInfo ∧
      (∀ p n, s.heap p = some n → filter n.flags = false → slotsInfo p = infoText (runs (owns s p) 16384)) ∧
      ∀ p, (∀ n, s.heap p = some n → filter n.flags = true) → slotsInfo p = none := by
  obtain ⟨st,ran,tracked⟩ := @passTracked s filter table 16384 (Nat.le_refl 16384)
  have last : ∃ next, infoStep s filter st 16384 = .ok next ∧
      (∀ p n, s.heap p = some n → filter n.flags = false → next.slotsInfo p = infoText (runs (owns s p) 16384)) ∧
      ∀ p, (∀ n, s.heap p = some n → filter n.flags = true) → next.slotsInfo p = none := by
    have idle {q : NodePtr} (closed : (scan (owns s q) 16384).start = none) :
        runs (owns s q) 16384 = (scan (owns s q) 16384).closed := by rw [runs,closed]
    rw [infoStep]
    split
    · rename_i none_
      refine ⟨_,rfl,fun q n found shown => ?_,tracked.quiet⟩
      have closed : (scan (owns s q) 16384).start = none := by rw [tracked.opened q,none_]; rfl
      rw [idle closed]
      exact tracked.texts q n found shown
    · rename_i p now
      obtain ⟨n,found⟩ := tracked.live table now
      rw [if_pos (.inl rfl)]
      simp only [ClusterState.deref,found,bind,Except.bind]
      split
      · rename_i hidden
        refine ⟨_,rfl,fun q m at_ shown => ?_,tracked.quiet⟩
        have other : q ≠ p := by
          rintro rfl
          obtain rfl := Option.some.inj (at_.symm.trans found)
          exact Bool.noConfusion (hidden.symm.trans shown)
        rw [idle (tracked.alone now other)]
        exact tracked.texts q m at_ shown
      · rename_i seen
        refine ⟨_,rfl,fun q m at_ shown => ?_,fun q gone => ?_⟩
        · by_cases mine : q = p
          · subst mine
            have ends : runs (owns s q) 16384 = (scan (owns s q) 16384).closed ++ [(st.start,16384 - 1)] := by
              rw [runs,tracked.current now]
            rw [ends]
            exact (Function.update_self ..).trans (infoMore st q (tracked.texts q m at_ shown) _)
          · rw [idle (tracked.alone now mine)]
            exact (Function.update_of_ne mine _ _).trans (tracked.texts q m at_ shown)
        · have other : q ≠ p := by
            rintro rfl
            exact seen (gone n found)
          exact (Function.update_of_ne other _ _).trans (tracked.quiet q gone)
  obtain ⟨next,stepped,texts⟩ := last
  refine ⟨next.slotsInfo,?_,texts⟩
  rw [clusterGenNodesSlotsInfo,List.range_succ,List.foldlM_append,ran]
  simp only [bind,Except.bind,List.foldlM_cons,stepped,List.foldlM_nil]
  rfl

end pass

/-- The texts of the nodes that are shown cover all the slots. -/
theorem slotsInfoCovers (table : Agreed s) (filter : NodeFlags → Bool) :
    ∃ slotsInfo, clusterGenNodesSlotsInfo s filter = .ok slotsInfo ∧
      ∀ p n, s.heap p = some n → filter n.flags = false →
        ∃ ranges, slotsInfo p = infoText ranges ∧ Covers s p 16384 ranges := by
  obtain ⟨slotsInfo,done,texts,_⟩ := passRuns table filter
  exact ⟨slotsInfo,done,fun p n found shown =>
    ⟨runs (owns s p) 16384,texts p n found shown,runsCover (owns s p) 16384,runsInside⟩⟩

def nameAt (s : ClusterState) (p : NodePtr) : Option NodeName := (s.heap p).map ClusterNode.name

/-- Every node that a line mentions is in memory. -/
structure Mentioned (s : ClusterState) : Prop where
  markers : ∀ {j q}, s.migratingSlotsTo j = some q ∨ s.importingSlotsFrom j = some q → ∃ m, s.heap q = some m
  masters : ∀ {p n q}, s.heap p = some n → n.slaveof = some q → ∃ m, s.heap q = some m

def addressWord (n : ClusterNode) : Bytes := cstr n.ip ++ 58 :: portText n.port ++ 64 :: portText n.cport

def masterWord (s : ClusterState) (n : ClusterNode) : Bytes := (n.slaveof.bind (nameAt s)).getD [45]

def epochOf (s : ClusterState) (n : ClusterNode) : Nat :=
  match n.slaveof with
  | some q => if n.flags.slave then (s.heap q).elim 0 ClusterNode.configEpoch else n.configEpoch
  | none => n.configEpoch

def linkWord (beat : Beat) (n : ClusterNode) : Bytes :=
  if beat.linked || n.flags.myself then textConnected else textDisconnected

def markerWord (s : ClusterState) (slot : Slot) : Option Bytes :=
  match s.migratingSlotsTo slot, s.importingSlotsFrom slot with
  | some q, _ => (nameAt s q).map (markerText slot 62)
  | none, some q => (nameAt s q).map (markerText slot 60)
  | none, none => none

def ownWords (s : ClusterState) (n : ClusterNode) : List Bytes :=
  if n.flags.myself then allSlots.filterMap (markerWord s) else []

def nodeWords (s : ClusterState) (beat : Beat) (ranges : List (Nat × Nat)) (n : ClusterNode) : List Bytes :=
  [addressWord n,representClusterNodeFlags n.flags,masterWord s n,signedDecimal beat.pingSent,
    signedDecimal beat.pongReceived,decimal (epochOf s n),linkWord beat n] ++ (ranges.map rangeText ++ ownWords s n)

theorem markersWords (live : Mentioned s) :
    markersText s = .ok ((allSlots.filterMap (markerWord s)).flatMap fun word => 32 :: word) := by
  have run : ∀ (slots : List Slot) (ci : Bytes), slots.foldlM (markerStep s) ci =
      .ok (ci ++ (slots.filterMap (markerWord s)).flatMap fun word => 32 :: word) := by
    intro slots
    induction slots with
    | nil => intro ci; rw [List.filterMap_nil,List.flatMap_nil,List.append_nil]; rfl
    | cons slot rest ih =>
      intro ci
      rw [List.foldlM_cons]
      cases migrating : s.migratingSlotsTo slot with
      | some q =>
        obtain ⟨m,found⟩ := live.markers (.inl migrating)
        have word : markerWord s slot = some (markerText slot 62 m.name) := by
          simp only [markerWord,migrating,nameAt,found,Option.map_some]
        simp only [markerStep,migrating,ClusterState.deref,found,bind,Except.bind]
        rw [ih,List.filterMap_cons_some word]
        simp
      | none =>
        cases importing : s.importingSlotsFrom slot with
        | some q =>
          obtain ⟨m,found⟩ := live.markers (.inr importing)
          have word : markerWord s slot = some (markerText slot 60 m.name) := by
            simp only [markerWord,migrating,importing,nameAt,found,Option.map_some]
          simp only [markerStep,migrating,importing,ClusterState.deref,found,bind,Except.bind]
          rw [ih,List.filterMap_cons_some word]
          simp
        | none =>
          have word : markerWord s slot = none := by simp only [markerWord,migrating,importing]
          simp only [markerStep,migrating,importing,bind,Except.bind]
          rw [ih,List.filterMap_cons_none word]
  unfold markersText sweep
  rw [run,List.nil_append]
  unfold allSlots
  rfl

theorem masterSpec (live : Mentioned s) {p : NodePtr} {n : ClusterNode} (found : s.heap p = some n) :
    masterText s n = .ok (masterWord s n) := by
  cases master : n.slaveof with
  | none => simp only [masterText,masterWord,master,Option.bind_none,Option.getD_none]
  | some q =>
    obtain ⟨m,there⟩ := live.masters found master
    simp only [masterText,masterWord,master,ClusterState.deref,there,bind,Except.bind,Option.bind_some,nameAt,
      Option.map_some,Option.getD_some]

theorem epochSpec (live : Mentioned s) {p : NodePtr} {n : ClusterNode} (found : s.heap p = some n) :
    nodeEpoch s n = .ok (epochOf s n) := by
  cases master : n.slaveof with
  | none => simp only [nodeEpoch,epochOf,master]
  | some q =>
    obtain ⟨m,there⟩ := live.masters found master
    simp only [nodeEpoch,epochOf,master]
    split
    · simp only [ClusterState.deref,there,bind,Except.bind,Option.elim_some]
    · rfl

/-- What `slots_info` holds is the ranges; without it the node owns no slot. -/
theorem slotsWords (table : Agreed s) {p : NodePtr} {n : ClusterNode} (found : s.heap p = some n)
    {ranges : List (Nat × Nat)} (covers : Covers s p 16384 ranges) :
    slotsText n (infoText ranges) = ranges.flatMap fun range => 32 :: rangeText range := by
  rw [infoText]
  split
  · rename_i empty
    have free : ∀ j, bitmapTestBit n.slots j = false := by
      intro j
      rw [Bool.eq_false_iff,ne_eq,← table.agree found j]
      intro owner
      have inside : j.val ∈ ownedBelow s p 16384 := by
        simp only [ownedBelow,List.mem_filter,List.mem_range,decide_eq_true_eq]
        exact ⟨j.isLt,by rw [slotAt,dif_pos j.isLt]; exact owner⟩
      rw [← covers.exact_,empty] at inside
      contradiction
    have none : n.numslots = 0 := by
      rw [table.counted found,Int.natCast_eq_zero,Finset.card_eq_zero,Finset.eq_empty_iff_forall_notMem]
      intro j member
      rw [memBits,free j] at member
      contradiction
    simp [slotsText,none,empty]
  · rfl

theorem lineShape (name ip port cport flags master ping pong epoch link : Bytes) (front back : List Bytes) :
    name ++ 32 :: ip ++ 58 :: port ++ 64 :: cport ++ [32] ++ flags ++ [32] ++ master ++
      32 :: ping ++ 32 :: pong ++ 32 :: epoch ++ 32 :: link ++ (front.flatMap fun word => 32 :: word) ++
      (back.flatMap fun word => 32 :: word) =
    joined name ([ip ++ 58 :: port ++ 64 :: cport,flags,master,ping,pong,epoch,link] ++ (front ++ back)) := by
  simp [joined]

/-- The description of a node is its words. -/
theorem descriptionWords (table : Agreed s) (live : Mentioned s) {p : NodePtr} {n : ClusterNode}
    (found : s.heap p = some n) (beats : NodePtr → Beat) {slotsInfo : NodePtr → Option Bytes}
    {ranges : List (Nat × Nat)} (info : slotsInfo p = infoText ranges) (covers : Covers s p 16384 ranges) :
    clusterGenNodeDescription s beats false slotsInfo p = .ok (joined n.name (nodeWords s (beats p) ranges n)) := by
  have slots := slotsWords table found covers
  have deref : s.deref p = .ok n := by simp only [ClusterState.deref,found]
  have words : (ranges.flatMap fun range => 32 :: rangeText range) =
      (ranges.map rangeText).flatMap fun word => 32 :: word := by rw [List.flatMap_map]
  rw [clusterGenNodeDescription,markersWords live,deref,valueBind,masterSpec live found,valueBind,
    epochSpec live found,valueBind,info,slots,words]
  simp only [Bool.false_and,Bool.false_eq_true,if_false]
  rw [nodeWords,ownWords,addressWord,← lineShape,linkWord]
  generalize (if (beats p).linked || n.flags.myself then textConnected else textDisconnected) = link
  cases mine : n.flags.myself with
  | true => rw [if_pos rfl,if_pos rfl,valueBind]
  | false =>
    have off : ¬ false = true := by decide
    rw [if_neg off,if_neg off,List.flatMap_nil,List.append_nil]

/-- The entries whose nodes are written, in the order of the iteration. -/
def shown (order : IterOrder TableEntry) (s : ClusterState) : List TableEntry :=
  (order.arrange s.nodes.entries).filter fun e => (s.heap e.node).any fun n => !n.flags.handshake

def lineOf (s : ClusterState) (beats : NodePtr → Beat) (ranges : NodePtr → List (Nat × Nat)) (e : TableEntry) : Bytes :=
  (s.heap e.node).elim [] fun n => joined n.name (nodeWords s (beats e.node) (ranges e.node) n)

theorem nodesDistinct (listed : Listed s) (order : IterOrder TableEntry) :
    ((order.arrange s.nodes.entries).map TableEntry.node).Nodup := by
  have names : ((order.arrange s.nodes.entries).map TableEntry.name).Nodup :=
    ((order.perm s.nodes.entries).map TableEntry.name).nodup_iff.mpr s.nodes.distinct
  refine List.Nodup.map_on (fun e inside f there same => ?_) names.of_map
  obtain ⟨n,found,left⟩ := listed.live e ((order.perm _).mem_iff.mp inside)
  obtain ⟨m,other,right⟩ := listed.live f ((order.perm _).mem_iff.mp there)
  rw [same,other] at found
  have name : e.name = f.name := by rw [← left,← right,Option.some.inj found]
  cases e
  cases f
  simp_all

/-- The lines of the configuration, one for each node that is not in handshake. -/
theorem descriptionLines (table : Agreed s) (listed : Listed s) (live : Mentioned s) (order : IterOrder TableEntry)
    (beats : NodePtr → Beat) : ∃ ranges : NodePtr → List (Nat × Nat),
      (∀ p n, s.heap p = some n → n.flags.handshake = false → Covers s p 16384 (ranges p)) ∧
      clusterGenNodesDescription order s beats NodeFlags.handshake false =
        .ok ((shown order s).flatMap fun e => lineOf s beats ranges e ++ [10]) := by
  obtain ⟨slotsInfo,ran,texts⟩ := slotsInfoCovers table NodeFlags.handshake
  have some_ : ∀ p, ∃ ranges, ∀ n, s.heap p = some n → n.flags.handshake = false →
      slotsInfo p = infoText ranges ∧ Covers s p 16384 ranges := by
    intro p
    cases found : s.heap p with
    | none => exact ⟨[],fun n same => absurd same (by simp)⟩
    | some m =>
      cases hidden : m.flags.handshake with
      | true =>
        refine ⟨[],fun n same seen => ?_⟩
        obtain rfl := Option.some.inj same
        exact absurd (seen.symm.trans hidden) (by decide)
      | false =>
        obtain ⟨ranges,both⟩ := texts p m found hidden
        exact ⟨ranges,fun _ _ _ => both⟩
  obtain ⟨ranges,covers⟩ := Classical.axiomOfChoice some_
  refine ⟨ranges,fun p n found seen => (covers p n found seen).2,?_⟩
  have walk : ∀ (entries : List TableEntry) (ci : Bytes) (left : NodePtr → Option Bytes),
      (entries.map TableEntry.node).Nodup → (∀ e ∈ entries, e ∈ s.nodes.entries ∧ left e.node = slotsInfo e.node) →
      ∃ rest, entries.foldlM (descriptionStep s beats NodeFlags.handshake false) (ci,left) =
        .ok (ci ++ (entries.filter fun e => (s.heap e.node).any fun n => !n.flags.handshake).flatMap
          fun e => lineOf s beats ranges e ++ [10],rest) := by
    intro entries
    induction entries with
    | nil => intro ci left _ _; exact ⟨left,by simp; rfl⟩
    | cons e tail ih =>
      intro ci left distinct inside
      obtain ⟨apart,distinct⟩ := List.nodup_cons.mp distinct
      obtain ⟨n,found,_⟩ := listed.live e (inside e List.mem_cons_self).1
      have deref : s.deref e.node = .ok n := by simp only [ClusterState.deref,found]
      rw [List.foldlM_cons,descriptionStep,deref,valueBind]
      cases hidden : n.flags.handshake with
      | true =>
        obtain ⟨rest,same⟩ := ih ci left distinct fun f there => inside f (List.mem_cons_of_mem _ there)
        refine ⟨rest,?_⟩
        rw [List.filter_cons_of_neg (by simp [found,hidden]),← same]
        rfl
      | false =>
        obtain ⟨info,cover⟩ := covers e.node n found hidden
        have own := (inside e List.mem_cons_self).2.trans info
        have described := descriptionWords table live found beats own cover
        obtain ⟨rest,same⟩ := ih (ci ++ joined n.name (nodeWords s (beats e.node) (ranges e.node) n) ++ [10])
          (Function.update left e.node none) distinct fun f there =>
            ⟨(inside f (List.mem_cons_of_mem _ there)).1,by
              rw [Function.update_of_ne fun clash => apart (List.mem_map.mpr ⟨f,there,clash⟩)]
              exact (inside f (List.mem_cons_of_mem _ there)).2⟩
        refine ⟨rest,?_⟩
        have line : lineOf s beats ranges e = joined n.name (nodeWords s (beats e.node) (ranges e.node) n) := by
          rw [lineOf,found,Option.elim_some]
        rw [List.filter_cons_of_pos (by simp [found,hidden]),List.flatMap_cons,line,← List.append_assoc ci,
          ← List.append_assoc ci,← same,if_neg (by decide),described]
        rfl
  obtain ⟨rest,same⟩ := walk (order.arrange s.nodes.entries) [] slotsInfo (nodesDistinct listed order)
    fun e inside => ⟨(order.perm _).mem_iff.mp inside,rfl⟩
  rw [clusterGenNodesDescription,ran,valueBind,same,valueBind,List.nil_append]
  rfl

end HpuCache.ConfigText
