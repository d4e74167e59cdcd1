import HpuCache.SlotUpdate

/-! Runs of slot announcements. When they all get through, every slot ends with the highest
epoch among its first owner and those who claimed it, so their order and number do not matter. -/
namespace HpuCache.SlotGossip
open BitArray FaultRun KeySlot NodeTable SlotTable SlotUpdate RankedClaims

structure Claim where
  node : NodePtr
  slots : Bitmap 16384

def gossipCall (s : ClusterState) (c : Claim) : Run ClusterState := do
  let n ← s.deref c.node
  clusterUpdateSlotsConfigWith s c.node n.configEpoch c.slots

def gossipRun (s : ClusterState) (claims : List Claim) : Run ClusterState := claims.foldlM gossipCall s

/-- The first owner of the slot and the nodes that claimed it. -/
def Candidate (s : ClusterState) (claims : List Claim) (j : Slot) (p : NodePtr) : Prop :=
  s.slots j = some p ∨ ∃ c ∈ claims, c.node = p ∧ bitmapTestBit c.slots j = true

theorem candidateAppend {s : ClusterState} {done : List Claim} {c : Claim} {j : Slot} {p : NodePtr} :
    Candidate s (done ++ [c]) j p ↔ Candidate s done j p ∨ (c.node = p ∧ bitmapTestBit c.slots j = true) := by
  simp only [Candidate,List.mem_append,List.mem_singleton,or_and_right,exists_or,exists_eq_left,or_assoc]

structure Settled (s : ClusterState) (claims : List Claim) (t : ClusterState) : Prop where
  importing : ∀ j, s.importingSlotsFrom j ≠ none → t.slots j = s.slots j
  highest : ∀ j, s.importingSlotsFrom j = none → Highest (epochOf s) (Candidate s claims j) (t.slots j)

/-- A replica without a known master is told of a slot that nobody owns. -/
def NullRead (s : ClusterState) (claims : List Claim) : Prop :=
  Orphan s ∧ ∃ c ∈ claims, ∃ j, bitmapTestBit c.slots j = true ∧ s.slots j = none ∧ s.importingSlotsFrom j = none

theorem readsNullIff {s : ClusterState} {p epoch slots} :
    ReadsNull s p epoch slots ↔ NullRead s [⟨p,slots⟩] := by
  simp only [ReadsNull,NullRead,List.mem_singleton,exists_eq_left]
  refine and_congr_right fun _ => exists_congr fun j => ?_
  constructor
  · rintro ⟨rebinds,free⟩
    exact ⟨rebinds.claimed,free,rebinds.closed⟩
  · rintro ⟨claimed,free,closed⟩
    exact ⟨⟨claimed,by simp [free],closed,by simp [free]⟩,free⟩

theorem nullAppend {s : ClusterState} {done claims : List Claim} :
    NullRead s (done ++ claims) ↔ NullRead s done ∨ NullRead s claims := by
  simp only [NullRead,List.mem_append,or_and_right,exists_or,and_or_left]

structure Gossiped (s : ClusterState) (done : List Claim) (t : ClusterState) : Prop where
  assigned : ∃ keys, Assigned (s.setKeys keys) t t.slots
  settled : Settled s done t
  clear : ¬ NullRead s done

theorem gossipedStart {s : ClusterState} (table : Agreed s) : Gossiped s [] s := by
  refine ⟨⟨s.slotsKeysCount,.refl table⟩,⟨fun _ _ => rfl,fun j _ => ?_⟩,by simp [NullRead]⟩
  exact highestSame (by simp [Candidate]) (highestAlone (epochOf s) (s.slots j))

section
variable {s t : ClusterState} {done : List Claim}

theorem Gossiped.live (gossiped : Gossiped s done t) (p : NodePtr) : (t.heap p).isSome = (s.heap p).isSome := by
  obtain ⟨keys,assigned⟩ := gossiped.assigned
  exact assigned.nodes.live p

theorem Gossiped.epoch (gossiped : Gossiped s done t) (p : NodePtr) : epochOf t p = epochOf s p := by
  obtain ⟨keys,assigned⟩ := gossiped.assigned
  exact sameEpoch assigned.nodes p

theorem Gossiped.frame (gossiped : Gossiped s done t) :
    t.myself = s.myself ∧ t.importingSlotsFrom = s.importingSlotsFrom ∧ t.noRedirection = s.noRedirection := by
  obtain ⟨keys,assigned⟩ := gossiped.assigned
  rw [assigned.rest]
  exact ⟨rfl,rfl,rfl⟩

theorem Gossiped.orphan (gossiped : Gossiped s done t) : Orphan t ↔ Orphan s := by
  obtain ⟨keys,assigned⟩ := gossiped.assigned
  have role {u v : ClusterState} (same : SameNodes u v) (me : v.myself = u.myself)
      (off : v.noRedirection = u.noRedirection) : Orphan u → Orphan v := by
    rintro ⟨none,m,found,slave,unknown⟩
    obtain ⟨k,there,alike⟩ := same.node found
    have flags : k.flags.master = m.flags.master := congrArg (fun n => n.flags.master) alike
    have link : k.slaveof = m.slaveof := congrArg (fun n => n.slaveof) alike
    exact ⟨off.trans none,k,me ▸ there,flags.trans slave,link.trans unknown⟩
  obtain ⟨me,_,off⟩ := gossiped.frame
  exact ⟨role assigned.nodes.symm me.symm off.symm,role assigned.nodes me off⟩

theorem Gossiped.null (gossiped : Gossiped s done t) (claims : List Claim) :
    NullRead t claims ↔ NullRead s claims := by
  obtain ⟨_,importing,_⟩ := gossiped.frame
  simp only [NullRead,gossiped.orphan,importing]
  refine and_congr_right fun orphan => exists_congr fun c => and_congr_right fun _ => exists_congr fun j =>
    and_congr_right fun _ => and_congr_left fun closed => ?_
  have highest := gossiped.settled.highest j closed
  constructor
  · intro free
    rw [free] at highest
    cases owner : s.slots j with
    | none => rfl
    | some p => exact absurd (.inl owner) (highest p)
  · intro free
    cases owner : t.slots j with
    | none => rfl
    | some p =>
      rw [owner] at highest
      rcases highest.1 with first | ⟨c,member,_,claimed⟩
      · rw [free] at first
        contradiction
      · exact absurd ⟨orphan,c,member,j,claimed,free,closed⟩ gossiped.clear

/-- A slot moves exactly when the claim wins it. -/
theorem claimedOwner {p : NodePtr} {slots : Bitmap 16384} {u : ClusterState} {j : Slot}
    (updated : Updated t p (epochOf t p) slots u) (closed : t.importingSlotsFrom j = none) :
    u.slots j = if bitmapTestBit slots j = true then claim (epochOf t) (t.slots j) p else t.slots j := by
  split
  · rename_i claimed
    by_cases rebinds : Rebinds t p (epochOf t p) slots j
    · rw [updated.moved j rebinds]
      cases owner : t.slots j with
      | none => rfl
      | some q => rw [claim,if_pos (rebinds.older q owner)]
    · rw [updated.kept j rebinds]
      cases owner : t.slots j with
      | none => exact absurd ⟨claimed,by simp [owner],closed,by simp [owner]⟩ rebinds
      | some q =>
        simp only [claim]
        split
        · rename_i older
          refine absurd ⟨claimed,?_,closed,?_⟩ rebinds
          · rintro own
            rw [owner,Option.some.injEq] at own
            rw [own] at older
            exact absurd older (lt_irrefl _)
          · intro r same
            rw [owner,Option.some.injEq] at same
            exact same ▸ older
        · rfl
  · rename_i unclaimed
    exact updated.kept j fun rebinds => unclaimed rebinds.claimed

theorem gossipStep (gossiped : Gossiped s done t) (me : (s.heap s.myself).isSome) {c : Claim}
    (other : c.node ≠ s.myself) (live : (s.heap c.node).isSome) :
    Ends (fun _ => NullRead s [c]) (Gossiped s (done ++ [c])) (gossipCall t c) := by
  obtain ⟨same,importing,_⟩ := gossiped.frame
  obtain ⟨n,found⟩ := Option.isSome_iff_exists.mp ((gossiped.live c.node).trans live)
  have rank : n.configEpoch = epochOf t c.node := by rw [epochOf,found]; rfl
  obtain ⟨keys,assigned⟩ := gossiped.assigned
  simp only [gossipCall,ClusterState.deref,found,bind,Except.bind,rank]
  refine (updateEnds assigned.table (by rw [gossiped.live,same]; exact me) ((gossiped.live c.node).trans live)
    (same ▸ other) (epochOf t c.node) c.slots).weaken ?_ ?_
  · rintro u ⟨updated,clear⟩
    obtain ⟨more,next⟩ := updated.assigned
    refine ⟨⟨more,(assigned.keys more).trans next⟩,⟨fun j open_ => ?_,fun j closed => ?_⟩,?_⟩
    · rw [updated.kept j fun rebinds => open_ (importing ▸ rebinds.closed)]
      exact gossiped.settled.importing j open_
    · have highest := gossiped.settled.highest j closed
      have ranks : epochOf t = epochOf s := funext gossiped.epoch
      rw [claimedOwner updated (by rw [importing]; exact closed),ranks]
      split
      · rename_i claimed
        refine highestSame (fun p => ?_) (highestClaim highest c.node)
        rw [candidateAppend,and_iff_left claimed,@eq_comm _ p]
      · rename_i unclaimed
        refine highestSame (fun p => ?_) highest
        rw [candidateAppend]
        exact or_iff_left fun now => unclaimed now.2
    · rw [nullAppend]
      rintro (early | now)
      · exact gossiped.clear early
      · exact clear (readsNullIff.mpr ((gossiped.null [c]).mpr now))
  · rintro e ⟨_,bad⟩
    exact (gossiped.null [c]).mp (readsNullIff.mp bad)

theorem gossipEnds (gossiped : Gossiped s done t) (me : (s.heap s.myself).isSome) {claims : List Claim}
    (known : ∀ c ∈ claims, c.node ≠ s.myself ∧ (s.heap c.node).isSome) :
    Ends (fun _ => NullRead s (done ++ claims)) (Gossiped s (done ++ claims)) (gossipRun t claims) := by
  induction claims generalizing done t with
  | nil =>
    rw [List.append_nil]
    exact gossiped
  | cons c rest ih =>
    have first := gossipStep gossiped me (known c (by simp)).1 (known c (by simp)).2
    simp only [gossipRun,List.foldlM_cons]
    have split : done ++ c :: rest = (done ++ [c]) ++ rest := by simp
    rw [split]
    refine (first.weaken (fun _ => id) fun e bad => ?_).bind fun u reached =>
      ih reached fun k member => known k (by simp [member])
    exact nullAppend.mpr (.inl (nullAppend.mpr (.inr bad)))

end

/-- The claims get through and settle every slot, and so do the same claims in any order and number. -/
def OrderFree (s : ClusterState) (claims : List Claim) : Prop :=
  ∃ t, gossipRun s claims = .ok t ∧ Settled s claims t ∧
    ∀ others, (∀ c, c ∈ others ↔ c ∈ claims) → ∃ u, gossipRun s others = .ok u ∧ SameTable t u

theorem Gossiped.sameTable {s t u : ClusterState} {claims others : List Claim} (left : Gossiped s claims t)
    (right : Gossiped s others u) (owners : u.slots = t.slots) : SameTable t u := by
  obtain ⟨_,first⟩ := left.assigned
  obtain ⟨_,second⟩ := right.assigned
  exact ownersSame first.table second.table (fun p => (right.live p).trans (left.live p).symm) owners

theorem Gossiped.owners {s t u : ClusterState} {claims others : List Claim} (left : Gossiped s claims t)
    (right : Gossiped s others u) (same : ∀ c, c ∈ others ↔ c ∈ claims)
    (apart : ∀ p q, (s.heap p).isSome → (s.heap q).isSome → epochOf s p = epochOf s q → p = q)
    (table : Agreed s) (known : ∀ c ∈ claims, (s.heap c.node).isSome) : u.slots = t.slots := by
  funext j
  by_cases closed : s.importingSlotsFrom j = none
  · have live (p : NodePtr) : Candidate s claims j p → (s.heap p).isSome := by
      rintro (owner | ⟨c,member,rfl,_⟩)
      · exact table.owned owner
      · exact known c member
    have candidates (p : NodePtr) : Candidate s claims j p ↔ Candidate s others j p := by
      simp only [Candidate,same]
    exact highestUnique (fun p q one two => apart p q (live p one) (live q two))
      (highestSame candidates (right.settled.highest j closed)) (left.settled.highest j closed)
  · rw [right.settled.importing j closed,left.settled.importing j closed]

/-- Announcements of other nodes than this one, no two of all nodes having one epoch. -/
structure Admissible (s : ClusterState) (claims : List Claim) : Prop where
  table : Agreed s
  me : (s.heap s.myself).isSome
  apart : ∀ p q, (s.heap p).isSome → (s.heap q).isSome → epochOf s p = epochOf s q → p = q
  known : ∀ c ∈ claims, c.node ≠ s.myself ∧ (s.heap c.node).isSome

/-- The announcements do not depend on their order, exactly when none of them makes this node read
the slots of a master it does not know. -/
theorem gossipOrderFree {s : ClusterState} {claims : List Claim} (admissible : Admissible s claims) :
    OrderFree s claims ↔ ¬ NullRead s claims := by
  obtain ⟨table,me,apart,known⟩ := admissible
  have run {others : List Claim} (same : ∀ c, c ∈ others ↔ c ∈ claims) :
      Ends (fun _ => NullRead s others) (Gossiped s others) (gossipRun s others) :=
    gossipEnds (gossipedStart table) me fun c member => known c ((same c).mp member)
  constructor
  · rintro ⟨t,ok,_⟩
    exact ((run fun _ => .rfl).value ok).clear
  · intro clear
    have total {others : List Claim} (same : ∀ c, c ∈ others ↔ c ∈ claims) :
        ∃ t, gossipRun s others = .ok t ∧ Gossiped s others t := by
      refine endsTotal.mp ((run same).weaken (fun _ => id) fun _ bad => clear ?_)
      simpa only [NullRead,same] using bad
    obtain ⟨t,ok,reached⟩ := total fun _ => .rfl
    refine ⟨t,ok,reached.settled,fun others same => ?_⟩
    obtain ⟨u,done,other⟩ := total same
    exact ⟨u,done,reached.sameTable other
      (reached.owners other same apart table fun c member => (known c member).2)⟩

def threeNodes (flags : NodeFlags) : ClusterState :=
  let other (nodename : NodeName) (epoch : Nat) : ClusterNode :=
    { createClusterNode nodename { NodeFlags.none with master := true } with configEpoch := epoch }
  { clusterInit 0 [97] with
    nodes := ⟨[⟨[97],0⟩,⟨[98],1⟩,⟨[99],2⟩],by decide⟩
    heap := fun
      | 0 => some (createClusterNode [97] flags)
      | 1 => some (other [98] 1)
      | 2 => some (other [99] 2)
      | _ => none }

theorem threeAgreed (flags : NodeFlags) : Agreed (threeNodes flags) := by
  refine agreedEmpty (fun _ => rfl) fun {p n} found => ?_
  match p with
  | 0 | 1 | 2 =>
    cases found
    exact ⟨rfl,rfl⟩

theorem threeApart (flags : NodeFlags) (p q : NodePtr) (left : ((threeNodes flags).heap p).isSome)
    (right : ((threeNodes flags).heap q).isSome)
    (same : epochOf (threeNodes flags) p = epochOf (threeNodes flags) q) : p = q := by
  have known (p : NodePtr) (live : ((threeNodes flags).heap p).isSome) : epochOf (threeNodes flags) p = p := by
    match p with
    | 0 | 1 | 2 => rfl
  rw [← known p left,← known q right,same]

def slotZero : Bitmap 16384 := bitmapSetBit emptyBitmap 0

theorem threeAdmissible (flags : NodeFlags) {claims : List Claim} (known : ∀ c ∈ claims, c.node = 1 ∨ c.node = 2) :
    Admissible (threeNodes flags) claims := by
  refine ⟨threeAgreed flags,rfl,threeApart flags,fun c member => ?_⟩
  obtain first | second := known c member
  · rw [first]
    exact ⟨Nat.succ_ne_zero 0,rfl⟩
  · rw [second]
    exact ⟨Nat.succ_ne_zero 1,rfl⟩

/-- Both masters claim slot 0 of a node that is a master itself. -/
theorem gossipOrderFreeShown : OrderFree (threeNodes { NodeFlags.none with myself := true, master := true })
    [⟨1,slotZero⟩,⟨2,slotZero⟩] := by
  refine (gossipOrderFree (threeAdmissible _ (by simp))).mpr ?_
  rintro ⟨⟨_,me,found,slave,_⟩,_⟩
  obtain rfl := Option.some.inj found
  exact Bool.noConfusion slave

/-- A replica that has lost its master from the table is told that slot 0 has an owner. -/
theorem orphanReadsNull :
    Admissible (threeNodes { NodeFlags.none with myself := true, slave := true }) [⟨1,slotZero⟩] ∧
    ¬ OrderFree (threeNodes { NodeFlags.none with myself := true, slave := true }) [⟨1,slotZero⟩] := by
  have admissible := threeAdmissible { NodeFlags.none with myself := true, slave := true }
    (show ∀ c ∈ [(⟨1,slotZero⟩ : Claim)],c.node = 1 ∨ c.node = 2 by simp)
  refine ⟨admissible,?_⟩
  rintro ⟨t,ok,_⟩
  refine ((gossipEnds (gossipedStart admissible.table) admissible.me admissible.known).value ok).clear ?_
  exact ⟨⟨rfl,_,rfl,rfl,rfl⟩,⟨1,slotZero⟩,by simp,0,by simp [slotZero],rfl,rfl⟩

end HpuCache.SlotGossip
