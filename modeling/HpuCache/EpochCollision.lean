import HpuCache.Contention
import Mathlib.Data.List.Sort

/-! Config epochs of masters that collide. A master that hears of its own config epoch from a
master with a greater node ID takes a new one, beyond every epoch it knows of. Packets are
lost, reordered and repeated at will, and the roles of the nodes do not change. Epochs do not wrap. -/
namespace HpuCache.EpochCollision
open Contention

variable {ν : Type}

structure Server (ν : Type) where
  currentEpoch : Nat
  configEpoch : Nat
  -- The `configEpoch` of the records of the other nodes.
  known : ν → Nat

structure Packet (ν : Type) where
  sender : ν
  target : ν
  currentEpoch : Nat
  configEpoch : Nat

structure Net (ν : Type) where
  servers : ν → Server ν
  sent : List (Packet ν)

inductive Event (ν : Type) where
  | ping (a b : ν)
  -- Any packet that was ever sent, by its place.
  | deliver (k : Nat)

section
variable [LinearOrder ν] (slaveof : ν → Option ν)

def nodeIsMaster (a : ν) : Bool := (slaveof a).isNone

/-- A slave sends the config epoch of its master. -/
def clusterBuildMessageHdr (s : Server ν) (a b : ν) : Packet ν :=
  ⟨a,b,s.currentEpoch,(slaveof a).elim s.configEpoch s.known⟩

def updateEpochs (s : Server ν) (p : Packet ν) : Server ν :=
  { s with
    currentEpoch := if s.currentEpoch < p.currentEpoch then p.currentEpoch else s.currentEpoch
    known := if s.known p.sender < p.configEpoch then Function.update s.known p.sender p.configEpoch else s.known }

def clusterHandleConfigEpochCollision (myself : ν) (s : Server ν) (sender : ν) : Server ν :=
  if s.known sender ≠ s.configEpoch ∨ ! nodeIsMaster slaveof sender ∨ ! nodeIsMaster slaveof myself then s
  else if sender ≤ myself then s
  else { s with currentEpoch := s.currentEpoch + 1, configEpoch := s.currentEpoch + 1 }

def clusterProcessPacket (s : Server ν) (p : Packet ν) : Server ν :=
  let s := updateEpochs s p
  if nodeIsMaster slaveof p.target && nodeIsMaster slaveof p.sender && p.configEpoch == s.configEpoch then
    clusterHandleConfigEpochCollision slaveof p.target s p.sender
  else s

def step (net : Net ν) : Event ν → Net ν
  | .ping a b => { net with sent := net.sent ++ [clusterBuildMessageHdr slaveof (net.servers a) a b] }
  | .deliver k =>
    match net.sent[k]? with
    | some p =>
      { net with servers := Function.update net.servers p.target (clusterProcessPacket slaveof (net.servers p.target) p) }
    | none => net

def run (net : Net ν) (events : List (Event ν)) : Net ν := events.foldl (step slaveof) net

def epochOf (net : Net ν) (a : ν) : Nat := (net.servers a).configEpoch

/-- No node knows of an epoch of a master that is not there yet, or is behind its own epoch. -/
structure Sound (net : Net ν) : Prop where
  known : ∀ a b, nodeIsMaster slaveof b = true → (net.servers a).known b ≤ epochOf net b
  current : ∀ a, epochOf net a ≤ (net.servers a).currentEpoch

section
variable {slaveof} {net : Net ν}

theorem runAppend (first second : List (Event ν)) :
    run slaveof net (first ++ second) = run slaveof (run slaveof net first) second := List.foldl_append

theorem epochsSeen (s : Server ν) (p : Packet ν) : (updateEpochs s p).configEpoch = s.configEpoch ∧
    s.currentEpoch ≤ (updateEpochs s p).currentEpoch ∧
    ∀ b, (updateEpochs s p).known b = if b = p.sender then max (s.known b) p.configEpoch else s.known b := by
  refine ⟨rfl,?_,fun b => ?_⟩
  · simp only [updateEpochs]
    split <;> omega
  · simp only [updateEpochs]
    by_cases sender : b = p.sender
    · subst sender
      split
      · rw [Function.update_self,if_pos rfl]
        omega
      · rw [if_pos rfl]
        omega
    · rw [if_neg sender]
      split
      · rw [Function.update_of_ne sender]
      · rfl

/-- All that a packet can do to the epochs of its target. -/
structure Processed (slaveof : ν → Option ν) (s : Server ν) (p : Packet ν) (t : Server ν) : Prop where
  current : s.currentEpoch ≤ t.currentEpoch
  known : ∀ b, t.known b = if b = p.sender then max (s.known b) p.configEpoch else s.known b
  epoch : t.configEpoch = s.configEpoch ∨
    (nodeIsMaster slaveof p.target = true ∧ nodeIsMaster slaveof p.sender = true ∧ p.target < p.sender ∧
      p.configEpoch = s.configEpoch ∧ s.currentEpoch < t.configEpoch ∧ t.configEpoch ≤ t.currentEpoch)
  -- A collision with a master of greater ID is never let pass.
  settled : nodeIsMaster slaveof p.target = true → nodeIsMaster slaveof p.sender = true → p.target < p.sender →
    p.configEpoch = s.configEpoch → t.known p.sender = s.configEpoch → t.configEpoch ≠ s.configEpoch ∨
      s.currentEpoch < s.configEpoch

variable (slaveof) in
theorem packetProcessed (s : Server ν) (p : Packet ν) : Processed slaveof s p (clusterProcessPacket slaveof s p) := by
  obtain ⟨epoch,current,known⟩ := epochsSeen s p
  unfold clusterProcessPacket
  dsimp only
  by_cases guard : (nodeIsMaster slaveof p.target && nodeIsMaster slaveof p.sender &&
      p.configEpoch == (updateEpochs s p).configEpoch) = true
  · rw [if_pos guard]
    simp only [Bool.and_eq_true,beq_iff_eq] at guard
    obtain ⟨⟨target,sender⟩,same⟩ := guard
    rw [epoch] at same
    unfold clusterHandleConfigEpochCollision
    by_cases other : (updateEpochs s p).known p.sender = s.configEpoch
    · simp only [epoch,other,ne_eq,not_true_eq_false,target,sender,Bool.not_true,Bool.false_eq_true,or_self,if_false]
      by_cases lower : p.sender ≤ p.target
      · rw [if_pos lower]
        exact ⟨current,known,.inl epoch,fun _ _ less => absurd lower (not_le.mpr less)⟩
      · rw [if_neg lower]
        refine ⟨by dsimp only; omega,known,.inr ⟨target,sender,not_le.mp lower,same,?_,?_⟩,fun _ _ _ _ _ => ?_⟩
        · dsimp only; omega
        · dsimp only; omega
        · dsimp only; omega
    · rw [if_pos (.inl (by rw [epoch]; exact other))]
      exact ⟨current,known,.inl epoch,fun _ _ _ _ same => absurd same other⟩
  · rw [if_neg guard]
    refine ⟨current,known,.inl epoch,fun target sender _ same _ => absurd ?_ guard⟩
    simp [target,sender,same,epoch]

/-- The cluster after the first `t` events. -/
abbrev history (slaveof : ν → Option ν) (net : Net ν) (events : List (Event ν)) (t : Nat) : Net ν :=
  run slaveof net (events.take t)

/-- What holds after a run: a packet of a master carries an epoch that the master has had. -/
structure Lived (slaveof : ν → Option ν) (start : Net ν) (events : List (Event ν)) : Prop where
  sound : Sound slaveof (run slaveof start events)
  packets : ∀ p ∈ (run slaveof start events).sent, nodeIsMaster slaveof p.sender = true →
    p.configEpoch ≤ epochOf (run slaveof start events) p.sender ∧
    ∃ t ≤ events.length, epochOf (history slaveof start events t) p.sender = p.configEpoch

/-- A master gave its epoch up to one of greater ID that has had it, for a greater epoch. -/
def GaveUp (slaveof : ν → Option ν) (start : Net ν) (events : List (Event ν)) (a : ν) (epoch : Nat) : Prop :=
  epochOf (run slaveof start events) a < epoch ∧ nodeIsMaster slaveof a = true ∧
    ∃ b, nodeIsMaster slaveof b = true ∧ a < b ∧
      ∃ t ≤ events.length, epochOf (history slaveof start events t) b = epochOf (run slaveof start events) a

theorem historyNext (events : List (Event ν)) (event : Event ν) {t : Nat} (before : t ≤ events.length) :
    history slaveof net (events ++ [event]) t = history slaveof net events t := by
  rw [history,List.take_append_of_le_length before]

theorem runNext (events : List (Event ν)) (event : Event ν) :
    run slaveof net (events ++ [event]) = step slaveof (run slaveof net events) event := by
  rw [runAppend]
  rfl

theorem livedNext {start : Net ν} {events : List (Event ν)} (lived : Lived slaveof start events) (event : Event ν) :
    Lived slaveof start (events ++ [event]) ∧ ∀ a,
      epochOf (run slaveof start (events ++ [event])) a = epochOf (run slaveof start events) a ∨
      GaveUp slaveof start events a (epochOf (run slaveof start (events ++ [event])) a) := by
  cases event with
  | ping a b =>
    refine ⟨⟨?_,fun p member master => ?_⟩,fun _ => .inl (by rw [runNext]; rfl)⟩
    · rw [runNext]
      exact ⟨lived.sound.known,lived.sound.current⟩
    · have same : epochOf (run slaveof start (events ++ [.ping a b])) p.sender =
          epochOf (run slaveof start events) p.sender := by
        rw [runNext]
        rfl
      rw [same]
      rw [runNext] at member
      rcases List.mem_append.mp member with old | new
      · obtain ⟨bound,t,before,had⟩ := lived.packets p old master
        refine ⟨bound,t,by simp only [List.length_append]; omega,?_⟩
        rwa [historyNext events _ before]
      · obtain rfl := List.mem_singleton.mp new
        have own : (clusterBuildMessageHdr slaveof ((run slaveof start events).servers a) a b).configEpoch =
            epochOf (run slaveof start events) a := by
          have top : slaveof a = none := Option.isNone_iff_eq_none.mp master
          rw [clusterBuildMessageHdr,top]
          rfl
        refine ⟨Nat.le_of_eq own,events.length,by simp,?_⟩
        rw [historyNext events _ (Nat.le_refl _),history,List.take_length,own]
        rfl
  | deliver k =>
    have wider (t : Nat) (before : t ≤ events.length) : t ≤ (events ++ [Event.deliver k]).length := by
      simp only [List.length_append]
      omega
    cases sent : (run slaveof start events).sent[k]? with
    | none =>
      have same : run slaveof start (events ++ [.deliver k]) = run slaveof start events := by
        rw [runNext,step,sent]
      refine ⟨⟨same ▸ lived.sound,fun p member master => ?_⟩,fun _ => .inl (by rw [same])⟩
      rw [same] at member ⊢
      obtain ⟨bound,t,before,had⟩ := lived.packets p member master
      exact ⟨bound,t,wider t before,by rwa [historyNext events _ before]⟩
    | some p =>
      have inside := List.mem_of_getElem? sent
      have processed := packetProcessed slaveof ((run slaveof start events).servers p.target) p
      have next : run slaveof start (events ++ [.deliver k]) = { run slaveof start events with
          servers := Function.update (run slaveof start events).servers p.target
            (clusterProcessPacket slaveof ((run slaveof start events).servers p.target) p) } := by
        rw [runNext,step,sent]
      have current := lived.sound.current p.target
      have grown (a : ν) : epochOf (run slaveof start events) a ≤ epochOf (run slaveof start (events ++ [.deliver k])) a := by
        rw [next]
        simp only [epochOf] at current ⊢
        by_cases here : a = p.target
        · subst here
          rw [Function.update_self]
          rcases processed.epoch with same | ⟨_,_,_,_,more,_⟩ <;> omega
        · rw [Function.update_of_ne here]
      refine ⟨⟨⟨fun a b master => ?_,fun a => ?_⟩,fun q member master => ?_⟩,fun a => ?_⟩
      · have old := (lived.sound.known a b master).trans (grown b)
        have bound : ((run slaveof start (events ++ [.deliver k])).servers a).known b =
            ((run slaveof start events).servers a).known b ∨ b = p.sender ∧
            ((run slaveof start (events ++ [.deliver k])).servers a).known b =
              max (((run slaveof start events).servers a).known b) p.configEpoch := by
          rw [next]
          dsimp only
          by_cases here : a = p.target
          · subst here
            rw [Function.update_self,processed.known b]
            split
            · exact .inr ⟨by assumption,rfl⟩
            · exact .inl rfl
          · rw [Function.update_of_ne here]
            exact .inl rfl
        rcases bound with same | ⟨rfl,same⟩
        · omega
        · have carried := (lived.packets p inside master).1.trans (grown p.sender)
          omega
      · rw [next]
        simp only [epochOf] at current ⊢
        by_cases here : a = p.target
        · subst here
          rw [Function.update_self]
          have more := processed.current
          rcases processed.epoch with same | ⟨_,_,_,_,_,bound⟩ <;> omega
        · rw [Function.update_of_ne here]
          exact lived.sound.current a
      · rw [next] at member
        obtain ⟨bound,t,before,had⟩ := lived.packets q member master
        exact ⟨bound.trans (grown q.sender),t,wider t before,by rwa [historyNext events _ before]⟩
      · by_cases here : a = p.target
        · subst here
          have now : epochOf (run slaveof start (events ++ [.deliver k])) p.target =
              (clusterProcessPacket slaveof ((run slaveof start events).servers p.target) p).configEpoch := by
            rw [next]
            simp only [epochOf,Function.update_self]
          rcases processed.epoch with same | ⟨target,sender,less,carried,more,_⟩
          · exact .inl (now.trans same)
          · obtain ⟨_,t,before,had⟩ := lived.packets p inside sender
            refine .inr ⟨?_,target,p.sender,sender,less,t,before,had.trans carried⟩
            rw [now]
            exact current.trans_lt more
        · left
          rw [next]
          simp only [epochOf,Function.update_of_ne here]

theorem livedRun {start : Net ν} (sound : Sound slaveof start) (unsent : start.sent = []) (events : List (Event ν)) :
    Lived slaveof start events := by
  induction events using List.reverseRecOn with
  | nil => exact ⟨sound,by simp [run,unsent]⟩
  | append_singleton before event ih => exact (livedNext ih event).1

variable {start : Net ν}

theorem epochGrows (sound : Sound slaveof start) (unsent : start.sent = []) (events more : List (Event ν)) (a : ν) :
    epochOf (run slaveof start events) a ≤ epochOf (run slaveof start (events ++ more)) a := by
  induction more using List.reverseRecOn with
  | nil => rw [List.append_nil]
  | append_singleton before event ih =>
    rw [← List.append_assoc]
    refine ih.trans ?_
    rcases (livedNext (livedRun sound unsent (events ++ before)) event).2 a with same | gave
    · rw [same]
    · exact Nat.le_of_lt gave.1

variable (slaveof) in
theorem sentGrows (net : Net ν) (more : List (Event ν)) : net.sent <+: (run slaveof net more).sent := by
  induction more using List.reverseRecOn with
  | nil => exact List.prefix_rfl
  | append_singleton before event ih =>
    rw [runNext]
    refine ih.trans ?_
    cases event with
    | ping a b => exact List.prefix_append _ _
    | deliver k =>
      simp only [step]
      cases (run slaveof net before).sent[k]? <;> exact List.prefix_rfl

/-- In the course of these events `j` sends a packet to `i`, and `i` gets it. -/
def Compared (slaveof : ν → Option ν) (net : Net ν) (events : List (Event ν)) (i j : ν) : Prop :=
  ∃ first middle last,
    events = first ++ .ping j i :: (middle ++ .deliver (run slaveof net first).sent.length :: last)

/-- Every master hears of every other one. -/
def Complete (slaveof : ν → Option ν) (masters : List ν) (net : Net ν) (events : List (Event ν)) : Prop :=
  ∀ i ∈ masters, ∀ j ∈ masters, i ≠ j → Compared slaveof net events i j

def Apart (masters : List ν) (net : Net ν) : Prop :=
  ∀ i ∈ masters, ∀ j ∈ masters, i ≠ j → epochOf net i ≠ epochOf net j

/-- An epoch that is the same at the end of a phase was the same all along. -/
theorem stillWithin {events first : List (Event ν)} (last : List (Event ν)) (sound : Sound slaveof start)
    (unsent : start.sent = []) {a : ν}
    (still : epochOf (run slaveof start (events ++ (first ++ last))) a = epochOf (run slaveof start events) a) :
    epochOf (run slaveof start (events ++ first)) a = epochOf (run slaveof start events) a := by
  have early := epochGrows sound unsent events first a
  have late := epochGrows sound unsent (events ++ first) last a
  rw [List.append_assoc,still] at late
  omega

theorem comparedApart (sound : Sound slaveof start) (unsent : start.sent = []) {events phase : List (Event ν)} {i j : ν}
    (compared : Compared slaveof (run slaveof start events) phase i j) (less : i < j)
    (target : nodeIsMaster slaveof i = true) (sender : nodeIsMaster slaveof j = true)
    (still : ∀ a, a = i ∨ a = j →
      epochOf (run slaveof start (events ++ phase)) a = epochOf (run slaveof start events) a) :
    epochOf (run slaveof start events) i ≠ epochOf (run slaveof start events) j := by
  obtain ⟨first,middle,last,rfl⟩ := compared
  have atPing (a) (which : a = i ∨ a = j) := stillWithin _ sound unsent (still a which)
  have atRead (a) (which : a = i ∨ a = j) :
      epochOf (run slaveof start (events ++ (first ++ .ping j i :: middle))) a = epochOf (run slaveof start events) a := by
    refine stillWithin
      (.deliver (run slaveof (run slaveof start events) first).sent.length :: last) sound unsent ?_
    simpa using still a which
  have afterRead (a) (which : a = i ∨ a = j) :
      epochOf (run slaveof start (events ++ (first ++ .ping j i :: middle) ++
        [.deliver (run slaveof (run slaveof start events) first).sent.length])) a =
        epochOf (run slaveof start events) a := by
    rw [List.append_assoc]
    refine stillWithin last sound unsent ?_
    simpa using still a which
  rw [← runAppend] at afterRead
  generalize before : run slaveof start (events ++ first) = net at afterRead atPing
  generalize read : events ++ (first ++ .ping j i :: middle) = upTo at afterRead atRead
  have there : run slaveof start upTo = run slaveof (step slaveof net (.ping j i)) middle := by
    rw [← read,← before,← List.append_assoc,runAppend]
    rfl
  have arrived : (run slaveof start upTo).sent[net.sent.length]? =
      some (clusterBuildMessageHdr slaveof (net.servers j) j i) := by
    obtain ⟨rest,same⟩ := sentGrows slaveof (step slaveof net (.ping j i)) middle
    rw [there,← same]
    simp [step]
  have carried : (clusterBuildMessageHdr slaveof (net.servers j) j i).configEpoch = epochOf net j := by
    rw [clusterBuildMessageHdr,Option.isNone_iff_eq_none.mp sender]
    rfl
  have lived := livedRun sound unsent upTo
  have processed := packetProcessed slaveof ((run slaveof start upTo).servers i)
    (clusterBuildMessageHdr slaveof (net.servers j) j i)
  intro same
  have bound := lived.sound.known i j sender
  have current := lived.sound.current i
  have equal : epochOf net j = ((run slaveof start upTo).servers i).configEpoch :=
    (atPing j (.inr rfl)).trans (same.symm.trans (atRead i (.inl rfl)).symm)
  have kept := afterRead i (.inl rfl)
  rw [← atRead i (.inl rfl),runNext,step,arrived] at kept
  simp only [epochOf,Function.update_self,clusterBuildMessageHdr] at kept
  refine (processed.settled target sender less (carried.trans equal) ?_).elim (fun moved => moved kept) fun behind => ?_
  · have hears := processed.known j
    rw [if_pos (show j = (clusterBuildMessageHdr slaveof (net.servers j) j i).sender from rfl),carried] at hears
    have now : epochOf (run slaveof start upTo) j = epochOf net j := (atRead j (.inr rfl)).trans (atPing j (.inr rfl)).symm
    refine hears.trans ?_
    rw [equal] at now ⊢
    omega
  · simp only [epochOf] at current
    omega

theorem historyGrows (sound : Sound slaveof start) (unsent : start.sent = []) (events : List (Event ν)) {t u : Nat}
    (order : t ≤ u) (a : ν) : epochOf (history slaveof start events t) a ≤ epochOf (history slaveof start events u) a := by
  have split : events.take u = events.take t ++ (events.take u).drop t := by
    conv_lhs => rw [← List.take_append_drop t (events.take u),List.take_take,Nat.min_eq_left order]
  rw [history,history,split]
  exact epochGrows sound unsent _ _ a

/-- The config epoch of the master at a place of the list. -/
def placed (masters : List ν) (net : Net ν) (k : Nat) : Nat := masters[k]?.elim 0 (epochOf net)

omit [LinearOrder ν] in
theorem placedAt {masters : List ν} {k : Nat} {i : ν} (here : masters[k]? = some i) (net : Net ν) :
    placed masters net k = epochOf net i := by
  rw [placed,here]
  rfl

variable {masters : List ν}

/-- A master of greater ID stands earlier in a descending list. -/
theorem greaterEarlier (descending : masters.Pairwise (· > ·)) {k m : Nat} {i j : ν} (here : masters[k]? = some i)
    (there : masters[m]? = some j) (less : i < j) : m < k := by
  obtain ⟨inside,rfl⟩ := List.getElem?_eq_some_iff.mp here
  obtain ⟨inside',rfl⟩ := List.getElem?_eq_some_iff.mp there
  rcases Nat.lt_trichotomy m k with before | rfl | after
  · exact before
  · exact absurd less (lt_irrefl _)
  · exact absurd (List.pairwise_iff_getElem.mp descending k m inside inside' after) (not_lt_of_gt less)

theorem runYields (sound : Sound slaveof start) (unsent : start.sent = [])
    (listed : ∀ a, nodeIsMaster slaveof a = true → a ∈ masters) (descending : masters.Pairwise (· > ·))
    (events : List (Event ν)) :
    Yields (fun t => placed masters (history slaveof start events t)) masters.length events.length := by
  refine ⟨fun t _ k contender => ?_,fun t less k contender changed => ?_⟩
  · have here := List.getElem?_eq_getElem contender
    rw [placedAt here,placedAt here]
    exact historyGrows sound unsent events (Nat.le_succ t) _
  · have here := List.getElem?_eq_getElem contender
    rw [placedAt here,placedAt here] at changed
    have next : events.take (t + 1) = events.take t ++ [events[t]] := by
      rw [List.take_add_one,List.getElem?_eq_getElem less]
      rfl
    rw [history,next] at changed
    rcases (livedNext (livedRun sound unsent (events.take t)) events[t]).2 masters[k] with same | ⟨_,_,b,master,greater,u,before,had⟩
    · exact absurd same changed
    · obtain ⟨m,inside,rfl⟩ := List.getElem_of_mem (listed b master)
      have there := List.getElem?_eq_getElem inside
      refine ⟨m,greaterEarlier descending here there greater,?_⟩
      rw [List.length_take] at before
      rw [placedAt here]
      refine Finset.mem_image.mpr ⟨u,Finset.mem_range.mpr (by omega),?_⟩
      show placed masters (history slaveof start events u) m = _
      rw [placedAt there,← had,history,history,List.take_take,Nat.min_eq_left (by omega)]

end

/-- Some master has another config epoch at the end of the phase than at its beginning. -/
def Changed (masters : List ν) (before after : Net ν) : Prop := ∃ i ∈ masters, epochOf before i ≠ epochOf after i

instance (masters : List ν) (before after : Net ν) : Decidable (Changed masters before after) :=
  List.decidableBEx (fun i => epochOf before i ≠ epochOf after i) masters

/-- The cluster between two phases of a run. -/
def between (net : Net ν) (phases : List (List (Event ν))) (l : Nat) : Net ν := run slaveof net (phases.take l).flatten

/-- The `k`th greatest master has at most `2^k` config epochs in the whole run. Fewer than `2^n - n` of the
phases change one, and a phase that changes none although every master hears of every other one
finds and leaves all their epochs different. -/
structure Resolved (masters : List ν) (start : Net ν) (phases : List (List (Event ν))) : Prop where
  few : ∀ k i, masters[k]? = some i →
    ((Finset.range (phases.flatten.length + 1)).image fun t => epochOf (history slaveof start phases.flatten t) i).card ≤
      2 ^ k
  rest : (List.range phases.length).countP (fun l =>
      decide (Changed masters (between slaveof start phases l) (between slaveof start phases (l + 1)))) +
    masters.length + 1 ≤ 2 ^ masters.length
  apart : ∀ l phase, phases[l]? = some phase → Complete slaveof masters (between slaveof start phases l) phase →
    ¬ Changed masters (between slaveof start phases l) (between slaveof start phases (l + 1)) →
    Apart masters (between slaveof start phases l) ∧ Apart masters (between slaveof start phases (l + 1))

section
variable {slaveof} {start : Net ν} {masters : List ν} {phases : List (List (Event ν))}

def mark (phases : List (List (Event ν))) (l : Nat) : Nat := (phases.take l).flatten.length

theorem historyMark (l : Nat) : history slaveof start phases.flatten (mark phases l) = between slaveof start phases l := by
  have split : phases.flatten = (phases.take l).flatten ++ (phases.drop l).flatten := by
    rw [← List.flatten_append,List.take_append_drop]
  rw [history,between,mark,split,List.take_left]

theorem betweenNext {l : Nat} {phase : List (Event ν)} (here : phases[l]? = some phase) :
    between slaveof start phases (l + 1) = run slaveof start ((phases.take l).flatten ++ phase) := by
  rw [between,List.take_add_one,here,Option.toList_some,List.flatten_append,List.flatten_singleton]

theorem changedMoved (l : Nat) : Changed masters (between slaveof start phases l) (between slaveof start phases (l + 1)) ↔
    Moved (fun t => placed masters (history slaveof start phases.flatten t)) masters.length (mark phases l)
      (mark phases (l + 1)) := by
  simp only [Moved,historyMark]
  constructor
  · rintro ⟨i,member,other⟩
    obtain ⟨k,inside,rfl⟩ := List.getElem_of_mem member
    refine ⟨k,inside,?_⟩
    rwa [placedAt (List.getElem?_eq_getElem inside),placedAt (List.getElem?_eq_getElem inside)]
  · rintro ⟨k,inside,other⟩
    rw [placedAt (List.getElem?_eq_getElem inside),placedAt (List.getElem?_eq_getElem inside)] at other
    exact ⟨masters[k],List.getElem_mem inside,other⟩

theorem quietApart (sound : Sound slaveof start) (unsent : start.sent = [])
    (listed : ∀ a, nodeIsMaster slaveof a = true ↔ a ∈ masters) {l : Nat} {phase : List (Event ν)}
    (here : phases[l]? = some phase) (complete : Complete slaveof masters (between slaveof start phases l) phase)
    (quiet : ¬ Changed masters (between slaveof start phases l) (between slaveof start phases (l + 1))) :
    Apart masters (between slaveof start phases l) := by
  have still (a : ν) (member : a ∈ masters) :
      epochOf (run slaveof start ((phases.take l).flatten ++ phase)) a = epochOf (between slaveof start phases l) a := by
    by_contra other
    refine quiet ⟨a,member,?_⟩
    rw [betweenNext here]
    exact Ne.symm other
  have lower (i : ν) (memberI : i ∈ masters) (j : ν) (memberJ : j ∈ masters) (less : i < j) :
      epochOf (between slaveof start phases l) i ≠ epochOf (between slaveof start phases l) j := by
    refine comparedApart sound unsent (complete i memberI j memberJ (ne_of_lt less)) less ((listed i).mpr memberI)
      ((listed j).mpr memberJ) ?_
    rintro a (rfl | rfl)
    · exact still a memberI
    · exact still a memberJ
  intro i memberI j memberJ other
  rcases lt_or_gt_of_ne other with less | greater
  · exact lower i memberI j memberJ less
  · exact (lower j memberJ i memberI greater).symm

end

theorem collisionsResolve {start : Net ν} {masters : List ν} (sound : Sound slaveof start) (unsent : start.sent = [])
    (listed : ∀ a, nodeIsMaster slaveof a = true ↔ a ∈ masters) (descending : masters.Pairwise (· > ·))
    (phases : List (List (Event ν))) : Resolved slaveof masters start phases := by
  have yields := runYields sound unsent (fun a => (listed a).mp) descending phases.flatten
  have total : mark phases phases.length = phases.flatten.length := by rw [mark,List.take_length]
  refine ⟨fun k i here => ?_,?_,fun l phase here complete quiet => ?_⟩
  · obtain ⟨contender,_⟩ := List.getElem?_eq_some_iff.mp here
    have bound := hadBound yields contender
    rw [had] at bound
    simp only [placedAt here] at bound
    exact bound
  · have ordered (l : Nat) (_ : l < phases.length) : mark phases l ≤ mark phases (l + 1) := by
      rw [mark,mark,List.take_add_one,List.flatten_append,List.length_append]
      exact Nat.le_add_right _ _
    rw [← total] at yields
    have bound := movesBounded ordered yields
    simp only [changedMoved]
    exact bound
  · have apart := quietApart sound unsent listed here complete quiet
    refine ⟨apart,fun i memberI j memberJ other => ?_⟩
    have same (a : ν) (member : a ∈ masters) :
        epochOf (between slaveof start phases (l + 1)) a = epochOf (between slaveof start phases l) a := by
      by_contra moved
      exact quiet ⟨a,member,Ne.symm moved⟩
    rw [same i memberI,same j memberJ]
    exact apart i memberI j memberJ other

end

/-- Two masters of a new cluster: both are at epoch zero. -/
def newborn : Net Bool := ⟨fun _ => ⟨0,0,fun _ => 0⟩,[]⟩

def acquainted : List (List (Event Bool)) :=
  [[.ping true false,.deliver 0,.ping false true,.deliver 1],[.ping true false,.deliver 2,.ping false true,.deliver 3]]

theorem collisionsResolveMet : Resolved (fun _ => none) [true,false] newborn acquainted ∧
    Changed [true,false] (between (fun _ => none) newborn acquainted 0) (between (fun _ => none) newborn acquainted 1) ∧
    Apart [true,false] (between (fun _ => none) newborn acquainted 2) := by
  have resolved : Resolved (fun _ => none) [true,false] newborn acquainted :=
    collisionsResolve _ ⟨fun _ _ _ => Nat.zero_le _,fun _ => Nat.zero_le _⟩ rfl (by decide) (by decide) acquainted
  refine ⟨resolved,by decide,(resolved.apart 1 _ rfl ?_ (by decide)).2⟩
  intro i _ j _ other
  cases i <;> cases j
  · contradiction
  · exact ⟨[],[],[.ping false true,.deliver 3],rfl⟩
  · exact ⟨[.ping true false,.deliver 2],[],[],rfl⟩
  · contradiction

end HpuCache.EpochCollision
