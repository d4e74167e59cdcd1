import HpuCache.CopiedSlot
import HpuCache.GroupCommands

/-! The command of redis-cli that copies one slot: it reads a list of targets, marks the slot at its
owner as being copied, copies it to each target that it has read and marks it as copied. -/
namespace HpuCache.CopyOneSlot
open KeySlot KeyedDict ByteText CommandCache GroupCommands SlotIndex PagedCopy CopiedSlot
open SlotMove hiding clusterManagerMigrateKeysInSlotHelp

variable {Value : Type}

structure ManagerNode where
  name : Bytes
  slave : Bool
  deriving DecidableEq, Repr

def clusterManagerNodeByName (nodes : List ManagerNode) (name : Bytes) : Option ManagerNode :=
  nodes.find? fun n => strncmpEqual n.name (name.map toLower) 40

/-- The node of an id, and whether the caller has an error to raise. -/
def clusterNodeForResharding (nodes : List ManagerNode) (id : Bytes) (target : Option ManagerNode) :
    Option ManagerNode × Bool :=
  match clusterManagerNodeByName nodes id with
  | none => (none,true)
  | some node =>
    if node.slave then (none,true)
    else if target.any fun t => decide (cstr node.name = cstr t.name) then (none,false)
    else (some node,false)

inductive Delivery where
  | unsent
  | refused
  -- The owner has run it, its reply is not read.
  | lost
  | ok
  deriving DecidableEq, Repr

def clusterManagerSetCopyStatus (delivery : Delivery) (finished : Bool) (st : SlotState) : SlotState × Bool :=
  match delivery with
  | .unsent => (st,false)
  | .refused => (st,false)
  | .lost => (if finished then setslotFincopy st else setslotCopying st,false)
  | .ok => (if finished then setslotFincopy st else setslotCopying st,true)

def comma : UInt8 := 44

/-- The loop over the commas; `none` is the read of a null pointer. What stands behind the last
comma is not looked at. -/
def readTargets (nodes : List ManagerNode) (src : ManagerNode) (targets : List ManagerNode) (name : Bytes) :
    Bytes → Option (List ManagerNode)
  | [] => some targets
  | c :: rest =>
    if c = comma then
      match (clusterNodeForResharding nodes name (some src)).1 with
      -- The address of the target is printed before its pointer is tested.
      | none => none
      | some target => readTargets nodes src (targets ++ [target]) [] rest
    else readTargets nodes src targets (name ++ [c]) rest

/-- What the command meets: the cluster it loads, the owner and the data of the slot, and how the
requests to the owner and the rounds of the copies go. -/
structure Setting (Value : Type) where
  healthy : Bool
  nodes : List ManagerNode
  owner : SlotState
  source : Db Value
  stores : ManagerNode → Store Value
  options : Options Value
  pipeline : Nat
  copying : Delivery
  fincopy : Delivery
  rounds : Nat → List Round

inductive Halt where
  -- More rounds are needed than are given.
  | running
  | crash
  deriving DecidableEq, Repr

structure Copies (Value : Type) where
  stores : ManagerNode → Store Value
  -- The connection to the owner is still up.
  link : Bool
  made : List (ManagerNode × Bool)

def copyTargets (s : Setting Value) (slot : Slot) : Nat → List ManagerNode → Copies Value → Except Halt (Copies Value)
  | _, [], c => .ok c
  | i, node :: rest, c =>
    let m := clusterManagerCopySlot s.options slot s.pipeline (s.rounds i) c.link ⟨s.source,c.stores node⟩
    match m.ending with
    | .running => .error .running
    | .fault => .error .crash
    -- The result of the copy is not looked at.
    | .returned ok => copyTargets s slot (i + 1) rest
        ⟨Function.update c.stores node m.ends.target,m.link,c.made ++ [(node,ok)]⟩

structure Outcome (Value : Type) where
  owner : SlotState
  copies : Copies Value
  -- FINCOPY has reached the owner.
  finished : Bool
  success : Bool

def clusterManagerCommandCopyOneSlot (s : Setting Value) (slot : Slot) (fromName toNames : Bytes) :
    Except Halt (Outcome Value) :=
  let idle : Copies Value := ⟨s.stores,true,[]⟩
  if !s.healthy then .ok ⟨s.owner,idle,false,false⟩
  else
    match (clusterNodeForResharding s.nodes fromName none).1 with
    | none => .ok ⟨s.owner,idle,false,false⟩
    | some src =>
      match readTargets s.nodes src [] [] toNames with
      | none => .error .crash
      | some targets =>
        let began := clusterManagerSetCopyStatus s.copying false s.owner
        if !began.2 then .ok ⟨began.1,idle,false,false⟩
        else
          match copyTargets s slot 0 targets idle with
          | .error halt => .error halt
          | .ok copies =>
            let fincopy := if copies.link then s.fincopy else .unsent
            let ended := clusterManagerSetCopyStatus fincopy true began.1
            .ok ⟨ended.1,copies,decide (fincopy ≠ .unsent),ended.2⟩

def terminated (toNames : Bytes) : List Bytes := (toNames.splitOn comma).dropLast

def lastName (toNames : Bytes) : Bytes := (toNames.splitOn comma).getLast?.getD []

def listed (toNames : Bytes) : List Bytes := terminated toNames ++
  if lastName toNames = [] then [] else [lastName toNames]

/-- Something goes wrong: a listed name is no master, or a request or a copy is no success. -/
def Failed (s : Setting Value) (src : Option ManagerNode) (toNames : Bytes) (out : Outcome Value) : Prop :=
  s.healthy = false ∨ src = none ∨ (∃ name ∈ listed toNames, (clusterNodeForResharding s.nodes name src).2 = true) ∨
    s.copying ≠ .ok ∨ (∃ copy ∈ out.copies.made, copy.2 = false) ∨ out.finished = false ∨ s.fincopy ≠ .ok

/-- FINCOPY reaches the owner, and a success is reported, only with every listed target copied to; a
failure is reported, and the owner has not been left with the mark of a copied slot. -/
structure Truthful (s : Setting Value) (src : Option ManagerNode) (toNames : Bytes) (out : Outcome Value) : Prop where
  copied : out.finished = true ∨ out.success = true → ∀ name ∈ listed toNames, ∀ node,
    (clusterNodeForResharding s.nodes name src).1 = some node → (node,true) ∈ out.copies.made
  whole : out.finished = true ∨ out.success = true → ∀ copy ∈ out.copies.made, copy.2 = true
  reported : Failed s src toNames out →
    out.success = false ∧ (out.owner.isCopied = false ∨ out.finished = false ∧ out.owner = s.owner)

/-- The name behind the last comma is empty, or stands for no node that is not a target already. -/
def Covered (s : Setting Value) (src : ManagerNode) (toNames : Bytes) (targets : List ManagerNode) : Prop :=
  lastName toNames = [] ∨
    ∀ node, (clusterNodeForResharding s.nodes (lastName toNames) (some src)).1 = some node → node ∈ targets

def Known (s : Setting Value) (src : ManagerNode) (toNames : Bytes) : Prop :=
  lastName toNames = [] ∨ (clusterNodeForResharding s.nodes (lastName toNames) (some src)).2 = false

/-- FINCOPY does not reach the owner, or it finds the whole list copied and its reply is read. -/
def Settles (s : Setting Value) (src : ManagerNode) (toNames : Bytes) (targets : List ManagerNode)
    (copies : Copies Value) : Prop :=
  copies.link = false ∨ s.fincopy = .unsent ∨
    (∀ copy ∈ copies.made, copy.2 = true) ∧ Covered s src toNames targets ∧
      (s.fincopy = .refused ∨ s.fincopy = .ok ∧ Known s src toNames)

/-- Every name before a comma has a node; and if the owner takes COPYING, no copy crashes. -/
def Meets (s : Setting Value) (slot : Slot) (src : ManagerNode) (toNames : Bytes) : Prop :=
  ∃ targets, (terminated toNames).mapM (fun name => (clusterNodeForResharding s.nodes name
    (some src)).1) = some targets ∧
    (s.copying = .ok → ∃ copies, copyTargets s slot 0 targets ⟨s.stores,true,[]⟩ = .ok copies ∧
      Settles s src toNames targets copies)

theorem resolvedMember {f : Bytes → Option ManagerNode} {names : List Bytes} {targets : List ManagerNode}
    (resolved : names.mapM f = some targets) {name : Bytes} (inside : name ∈ names) :
      ∃ node ∈ targets, f name = some node := by
  induction names generalizing targets with
  | nil => contradiction
  | cons first rest ih =>
    simp only [List.mapM_cons,bind,Option.bind_eq_some_iff] at resolved
    obtain ⟨node,found,later,resolved,same⟩ := resolved
    cases Option.some.inj same
    rcases List.mem_cons.mp inside with rfl | inside
    · exact ⟨node,List.mem_cons_self,found⟩
    · obtain ⟨other,member,found⟩ := ih resolved inside
      exact ⟨other,List.mem_cons_of_mem _ member,found⟩

theorem resolvedQuiet {nodes : List ManagerNode} {id : Bytes} {target : Option ManagerNode} {node : ManagerNode}
    (found : (clusterNodeForResharding nodes id target).1 = some node) :
      (clusterNodeForResharding nodes id target).2 = false := by
  unfold clusterNodeForResharding at found ⊢
  split at found <;> try contradiction
  split at found <;> try contradiction
  rename_i master
  rw [if_neg master]
  split at found <;> try contradiction
  rename_i other
  rw [if_neg other]

theorem readTargetsSpec (nodes : List ManagerNode) (src : ManagerNode) (targets : List ManagerNode)
    (name toNames : Bytes) :
    readTargets nodes src targets name toNames =
      ((((toNames.splitOn comma).modifyHead (name ++ ·)).dropLast).mapM fun name =>
        (clusterNodeForResharding nodes name (some src)).1).map (targets ++ ·) := by
  induction toNames generalizing targets name with
  | nil => simp [readTargets,List.splitOn]
  | cons c rest ih =>
    have pieces : (c :: rest).splitOn comma =
        if c = comma then [] :: rest.splitOn comma else (rest.splitOn comma).modifyHead (c :: ·) := by
      simp only [List.splitOn,List.splitOnP_cons_eq_if_modifyHead,beq_iff_eq]
    have filled : rest.splitOn comma ≠ [] := List.splitOnP_ne_nil _ _
    rw [readTargets,pieces]
    by_cases here : c = comma
    · rw [if_pos here,if_pos here,List.modifyHead_cons,List.append_nil,List.dropLast_cons_of_ne_nil filled,List.mapM_cons]
      cases found : (clusterNodeForResharding nodes name (some src)).1 with
      | none => rfl
      | some target =>
        have whole : (rest.splitOn comma).modifyHead (([] : Bytes) ++ ·) = rest.splitOn comma := by
          simp only [List.nil_append]
          exact congrFun List.modifyHead_id _
        simp only [ih,whole,bind,Option.bind_some,pure]
        cases (rest.splitOn comma).dropLast.mapM fun name => (clusterNodeForResharding nodes name (some src)).1 with
        | none => rfl
        | some later => simp
    · rw [if_neg here,if_neg here,ih,List.modifyHead_modifyHead]
      simp only [List.append_assoc,List.singleton_append]
      rfl

theorem readTargetsWhole (nodes : List ManagerNode) (src : ManagerNode) (toNames : Bytes) :
    readTargets nodes src [] [] toNames =
      (terminated toNames).mapM fun name => (clusterNodeForResharding nodes name (some src)).1 := by
  have whole : (toNames.splitOn comma).modifyHead (([] : Bytes) ++ ·) = toNames.splitOn comma := by
    simp only [List.nil_append]
    exact congrFun List.modifyHead_id _
  rw [readTargetsSpec,whole,terminated]
  simp

section copies
variable {s : Setting Value} {slot : Slot} {i : Nat} {targets : List ManagerNode} {c copies : Copies Value}

theorem copiesMade (ran : copyTargets s slot i targets c = .ok copies) :
    copies.made.map Prod.fst = c.made.map Prod.fst ++ targets := by
  induction targets generalizing i c with
  | nil =>
    cases Except.ok.inj ran
    rw [List.append_nil]
  | cons node rest ih =>
    unfold copyTargets at ran
    dsimp only at ran
    split at ran <;> try contradiction
    rw [ih ran]
    simp

/-- The target of a copy that is a success has the entries of the slot, whatever is copied after it. -/
theorem copiesCarried (positive : 1 ≤ s.pipeline) (small : (keysOf slot s.source).length < 2 ^ 32)
    (before : ∀ node, (node,true) ∈ c.made → Carried (keysOf slot s.source) ⟨s.source,c.stores node⟩)
    (ran : copyTargets s slot i targets c = .ok copies) :
    ∀ node, (node,true) ∈ copies.made → Carried (keysOf slot s.source) ⟨s.source,copies.stores node⟩ := by
  induction targets generalizing i c with
  | nil =>
    cases Except.ok.inj ran
    exact before
  | cons node rest ih =>
    unfold copyTargets at ran
    dsimp only at ran
    split at ran <;> try contradiction
    rename_i ok ended
    have keeps := managedKeeps s.options slot s.pipeline 0 c.link (s.rounds i) ⟨s.source,c.stores node⟩
    have carried : (clusterManagerCopySlot s.options slot s.pipeline
        (s.rounds i) c.link ⟨s.source,c.stores node⟩).ending =
        .returned true → Carried ((keysOf slot s.source).drop 0)
          (clusterManagerCopySlot s.options slot s.pipeline (s.rounds i) c.link ⟨s.source,c.stores node⟩).ends :=
      managedCarried positive small (Nat.zero_le intMax)
    rw [clusterManagerCopySlot] at ended ran carried
    generalize clusterManagerMigrateKeysInSlotHelp s.options slot s.pipeline true (s.rounds i) 0 c.link
      ⟨s.source,c.stores node⟩ = m at ended ran keeps carried
    have source : m.ends.source = s.source := keeps.source
    have whole : (⟨s.source,m.ends.target⟩ : Ends Value) = m.ends := by rw [← source]
    refine ih (fun other member => ?_) ran
    dsimp only at member ⊢
    by_cases same : other = node
    · subst same
      rw [Function.update_self,whole]
      rcases List.mem_append.mp member with member | last
      · exact keeps.carried (before other member)
      · cases List.mem_singleton.mp last
        exact carried ended
    · rw [Function.update_of_ne same]
      refine before other ?_
      simpa [same] using member

theorem copiesEnd (enough : ∀ i, (keysOf slot s.source).length < (s.rounds i).length) :
    copyTargets s slot i targets c ≠ .error .running := by
  induction targets generalizing i c with
  | nil => nofun
  | cons node rest ih =>
    unfold copyTargets
    dsimp only
    split
    · rename_i running
      exact absurd running (managedEnds (Nat.zero_le intMax) (enough i))
    · nofun
    · exact ih

end copies

def concluded (s : Setting Value) (copies : Copies Value) : Outcome Value :=
  let fincopy := if copies.link then s.fincopy else .unsent
  let ended := clusterManagerSetCopyStatus fincopy true (setslotCopying s.owner)
  ⟨ended.1,copies,decide (fincopy ≠ .unsent),ended.2⟩

theorem setCopyRefused {delivery : Delivery} {finished : Bool} {st : SlotState} (other : delivery ≠ .ok) :
    (clusterManagerSetCopyStatus delivery finished st).2 = false := by
  cases delivery <;> first | rfl | contradiction

/-- The ways of the command: no source to copy from, a name that crashes it, a COPYING that is not
acknowledged, and copies. -/
inductive CommandWay (s : Setting Value) (slot : Slot) (fromName toNames : Bytes) : Except Halt (Outcome Value) → Prop
  | idle (absent : s.healthy = true → (clusterNodeForResharding s.nodes fromName none).1 = none) :
      CommandWay s slot fromName toNames (.ok ⟨s.owner,⟨s.stores,true,[]⟩,false,false⟩)
  | crash {src : ManagerNode} (healthy : s.healthy = true)
      (found : (clusterNodeForResharding s.nodes fromName none).1 = some src)
      (unread : (terminated toNames).mapM (fun name => (clusterNodeForResharding s.nodes name (some src)).1) = none) :
      CommandWay s slot fromName toNames (.error .crash)
  | refused {src : ManagerNode} {targets : List ManagerNode} (healthy : s.healthy = true)
      (found : (clusterNodeForResharding s.nodes fromName none).1 = some src)
      (resolved : (terminated toNames).mapM (fun name => (clusterNodeForResharding s.nodes name
        (some src)).1) = some targets)
      (copying : s.copying ≠ .ok) : CommandWay s slot fromName toNames
        (.ok ⟨(clusterManagerSetCopyStatus s.copying false s.owner).1,⟨s.stores,true,[]⟩,false,false⟩)
  | copied {src : ManagerNode} {targets : List ManagerNode} (healthy : s.healthy = true)
      (found : (clusterNodeForResharding s.nodes fromName none).1 = some src)
      (resolved : (terminated toNames).mapM (fun name => (clusterNodeForResharding s.nodes name
        (some src)).1) = some targets)
      (copying : s.copying = .ok) : CommandWay s slot fromName toNames
        ((copyTargets s slot 0 targets ⟨s.stores,true,[]⟩).map (concluded s))

theorem commandWay (s : Setting Value) (slot : Slot) (fromName toNames : Bytes) :
    CommandWay s slot fromName toNames (clusterManagerCommandCopyOneSlot s slot fromName toNames) := by
  unfold clusterManagerCommandCopyOneSlot
  split
  · rename_i sick
    exact .idle fun healthy => by simp [healthy] at sick
  rename_i healthy
  have healthy : s.healthy = true := by simpa using healthy
  split
  · rename_i none
    exact .idle fun _ => none
  rename_i src found
  rw [readTargetsWhole]
  split
  · rename_i unread
    exact .crash healthy found unread
  rename_i targets resolved
  by_cases copying : s.copying = .ok
  · have way : CommandWay s slot fromName toNames ((copyTargets s slot 0 targets ⟨s.stores,true,[]⟩).map (concluded s)) :=
      .copied healthy found resolved copying
    have began : clusterManagerSetCopyStatus .ok false s.owner = (setslotCopying s.owner,true) := rfl
    simp only [copying,began,Bool.not_true,Bool.false_eq_true,if_false]
    cases ran : copyTargets s slot 0 targets ⟨s.stores,true,[]⟩ with
    | error halt => rwa [ran] at way
    | ok copies => rwa [ran] at way
  · simp only [setCopyRefused copying,Bool.not_false,if_true]
    exact .refused healthy found resolved copying

section command
variable {s : Setting Value} {slot : Slot} {src : ManagerNode} {toNames fromName : Bytes} {targets : List ManagerNode}

theorem quietTruthful {out : Outcome Value} (quiet : out.finished = false ∧ out.success = false)
    (unmarked : out.owner.isCopied = false ∨ out.owner = s.owner) (source : Option ManagerNode) :
    Truthful s source toNames out := by
  have never : ¬ (out.finished = true ∨ out.success = true) := by simp [quiet]
  exact ⟨fun done => absurd done never,fun done => absurd done never,
    fun _ => ⟨quiet.2,unmarked.imp id fun same => ⟨quiet.1,same⟩⟩⟩

theorem listedCases {name : Bytes} (inside : name ∈ listed toNames) :
    name ∈ terminated toNames ∨ lastName toNames ≠ [] ∧ name = lastName toNames := by
  rcases List.mem_append.mp inside with inside | last
  · exact .inl inside
  · split at last
    · contradiction
    · rename_i filled
      exact .inr ⟨filled,List.mem_singleton.mp last⟩

theorem lastListed (filled : lastName toNames ≠ []) : lastName toNames ∈ listed toNames := by
  simp [listed,filled]

theorem settledTruthful {copies : Copies Value} (healthy : s.healthy = true) (copying : s.copying = .ok)
    (resolved : (terminated toNames).mapM (fun name => (clusterNodeForResharding s.nodes name
      (some src)).1) = some targets)
    (made : copies.made.map Prod.fst = targets) (settles : Settles s src toNames targets copies) :
    Truthful s (some src) toNames (concluded s copies) := by
  by_cases unsent : (if copies.link then s.fincopy else .unsent) = .unsent
  · refine quietTruthful ?_ (.inl ?_) _
    · simp [concluded,unsent,clusterManagerSetCopyStatus]
    · simp [concluded,unsent,clusterManagerSetCopyStatus,setslotCopying]
  have up : copies.link = true := by
    by_contra down
    exact unsent (if_neg down)
  rw [if_pos up] at unsent
  have sent : copies.link ≠ false := by simp [up]
  obtain ⟨all,covered,way⟩ := (settles.resolve_left sent).resolve_left unsent
  refine ⟨fun _ name inside node found => ?_,fun _ => all,fun failed => ?_⟩
  · have target : node ∈ targets := by
      rcases listedCases inside with inside | ⟨filled,rfl⟩
      · obtain ⟨other,member,same⟩ := resolvedMember resolved inside
        cases found.symm.trans same
        exact member
      · exact covered.resolve_left filled node found
    rw [← made] at target
    obtain ⟨⟨_,ok⟩,member,rfl⟩ := List.mem_map.mp target
    obtain rfl : ok = true := all _ member
    exact member
  · rcases way with way | ⟨way,known⟩
    · exact ⟨by simp [concluded,up,way,clusterManagerSetCopyStatus],
        .inl (by simp [concluded,up,way,clusterManagerSetCopyStatus,setslotCopying])⟩
    · exfalso
      rcases failed with sick | none | ⟨name,inside,raised⟩ | refused | ⟨copy,member,failed⟩ | unfinished | refused
      · simp [healthy] at sick
      · contradiction
      · rcases listedCases inside with inside | ⟨filled,rfl⟩
        · obtain ⟨node,_,found⟩ := resolvedMember resolved inside
          simp [resolvedQuiet found] at raised
        · simp [known.resolve_left filled] at raised
      · exact refused copying
      · simp [all copy member] at failed
      · simp [concluded,up,way] at unfinished
      · exact refused way

theorem truthfulSettled {copies : Copies Value} (made : copies.made.map Prod.fst = targets)
    (truthful : Truthful s (some src) toNames (concluded s copies)) : Settles s src toNames targets copies := by
  cases up : copies.link with
  | false => exact .inl up
  | true =>
    by_cases unsent : s.fincopy = .unsent
    · exact .inr (.inl unsent)
    have finished : (concluded s copies).finished = true := by simp [concluded,up,unsent]
    refine .inr (.inr ⟨truthful.whole (.inl finished),?_,?_⟩)
    · by_cases filled : lastName toNames = []
      · exact .inl filled
      · refine .inr fun node found => ?_
        rw [← made]
        exact List.mem_map_of_mem (truthful.copied (.inl finished) _ (lastListed filled) node found)
    · cases way : s.fincopy with
      | unsent => contradiction
      | refused => exact .inl rfl
      | lost =>
        have failed : Failed s (some src) toNames (concluded s copies) := by simp [Failed,way]
        rcases (truthful.reported failed).2 with unmarked | ⟨unfinished,_⟩
        · simp [concluded,up,way,clusterManagerSetCopyStatus,setslotFincopy] at unmarked
        · simp [finished] at unfinished
      | ok =>
        refine .inr ⟨rfl,?_⟩
        by_cases filled : lastName toNames = []
        · exact .inl filled
        · refine .inr ?_
          by_contra raised
          have failed : Failed s (some src) toNames (concluded s copies) :=
            .inr (.inr (.inl ⟨_,lastListed filled,by simpa using raised⟩))
          have success := (truthful.reported failed).1
          simp [concluded,up,way,clusterManagerSetCopyStatus] at success

theorem refusedUnmarked (copying : s.copying ≠ .ok) : (clusterManagerSetCopyStatus s.copying false s.owner).1.isCopied = false ∨
    (clusterManagerSetCopyStatus s.copying false s.owner).1 = s.owner := by
  cases way : s.copying with
  | unsent => exact .inr rfl
  | refused => exact .inr rfl
  | lost => exact .inl rfl
  | ok => contradiction

theorem concludedOf {run : Except Halt (Copies Value)} {out : Outcome Value} (ran : run.map (concluded s) = .ok out) :
    ∃ copies, run = .ok copies ∧ out = concluded s copies := by
  cases run with
  | error halt => contradiction
  | ok copies => exact ⟨copies,rfl,(Except.ok.inj ran).symm⟩

theorem truthfulIff (s : Setting Value) (slot : Slot) (fromName toNames : Bytes) :
    (∃ out, clusterManagerCommandCopyOneSlot s slot fromName toNames = .ok out ∧
      Truthful s (clusterNodeForResharding s.nodes fromName none).1 toNames out) ↔
    (s.healthy = true → ∀ src, (clusterNodeForResharding s.nodes fromName none).1 = some src →
      Meets s slot src toNames) := by
  have way := commandWay s slot fromName toNames
  generalize clusterManagerCommandCopyOneSlot s slot fromName toNames = run at way ⊢
  cases way with
  | idle absent =>
    constructor
    · intro _ healthy src found
      rw [absent healthy] at found
      contradiction
    · exact fun _ => ⟨_,rfl,quietTruthful ⟨rfl,rfl⟩ (.inr rfl) _⟩
  | @crash src healthy found unread =>
    constructor
    · rintro ⟨_,ran,_⟩
      contradiction
    · intro meets
      obtain ⟨targets,resolved,_⟩ := meets healthy src found
      rw [unread] at resolved
      contradiction
  | @refused src targets healthy found resolved copying =>
    constructor
    · intro _ _ src' found'
      cases found.symm.trans found'
      exact ⟨targets,resolved,fun ok => absurd ok copying⟩
    · exact fun _ => ⟨_,rfl,quietTruthful ⟨rfl,rfl⟩ (refusedUnmarked copying) _⟩
  | @copied src targets healthy found resolved copying =>
    rw [found]
    constructor
    · rintro ⟨out,ran,truthful⟩ _ src' same
      cases same
      refine ⟨targets,resolved,fun _ => ?_⟩
      obtain ⟨copies,done,rfl⟩ := concludedOf ran
      exact ⟨copies,done,truthfulSettled (copiesMade done) truthful⟩
    · intro meets
      obtain ⟨targets',resolved',settles⟩ := meets healthy src rfl
      cases resolved.symm.trans resolved'
      obtain ⟨copies,done,settles⟩ := settles copying
      exact ⟨concluded s copies,by rw [done]; rfl,settledTruthful healthy copying resolved (copiesMade done) settles⟩

end command

/-- The command is truthful exactly when it has no source to copy from or `Meets` holds; enough rounds end
it, and the targets of its successful copies have the slot. -/
theorem copyOneSlotTruthful (s : Setting Value) (slot : Slot) (fromName toNames : Bytes) :
    ((∃ out, clusterManagerCommandCopyOneSlot s slot fromName toNames = .ok out ∧
        Truthful s (clusterNodeForResharding s.nodes fromName none).1 toNames out) ↔
      (s.healthy = true → ∀ src, (clusterNodeForResharding s.nodes fromName none).1 = some src →
        Meets s slot src toNames)) ∧
    ((∀ i, (keysOf slot s.source).length < (s.rounds i).length) →
      clusterManagerCommandCopyOneSlot s slot fromName toNames ≠ .error .running) ∧
    (1 ≤ s.pipeline → (keysOf slot s.source).length < 2 ^ 32 →
      ∀ out, clusterManagerCommandCopyOneSlot s slot fromName toNames = .ok out →
        ∀ node, (node,true) ∈ out.copies.made → Carried (keysOf slot s.source) ⟨s.source,out.copies.stores node⟩) := by
  have way := commandWay s slot fromName toNames
  refine ⟨truthfulIff s slot fromName toNames,?_⟩
  generalize clusterManagerCommandCopyOneSlot s slot fromName toNames = run at way ⊢
  cases way with
  | idle =>
    refine ⟨fun _ => nofun,fun _ _ out same => ?_⟩
    cases Except.ok.inj same
    nofun
  | crash => exact ⟨fun _ => nofun,fun _ _ _ => nofun⟩
  | refused =>
    refine ⟨fun _ => nofun,fun _ _ out same => ?_⟩
    cases Except.ok.inj same
    nofun
  | @copied src targets =>
    refine ⟨fun enough running => ?_,fun positive small out ran => ?_⟩
    · have ends : copyTargets s slot 0 targets ⟨s.stores,true,[]⟩ ≠ .error .running := copiesEnd enough
      refine ends ?_
      cases ended : copyTargets s slot 0 targets ⟨s.stores,true,[]⟩ with
      | error halt =>
        rw [ended] at running
        rw [Except.error.inj running]
      | ok copies =>
        rw [ended] at running
        contradiction
    · obtain ⟨copies,done,rfl⟩ := concludedOf ran
      exact copiesCarried positive small (fun _ member => absurd member List.not_mem_nil) done

def threeNodes : Setting Bytes where
  healthy := true
  nodes := [⟨[97],false⟩,⟨[98],false⟩,⟨[99],false⟩]
  owner := .zeroed
  source := twoKeys
  stores _ := .empty
  options := plainOptions
  pipeline := 10
  copying := .ok
  fincopy := .ok
  rounds _ := [answeredRound,answeredRound,answeredRound]

theorem copyOneSlotShown : ∃ out, clusterManagerCommandCopyOneSlot threeNodes slotOfK [97] [98,44,99,44] = .ok out ∧
    Truthful threeNodes (some ⟨[97],false⟩) [98,44,99,44] out ∧
    Carried (keysOf slotOfK twoKeys) ⟨twoKeys,out.copies.stores ⟨[99],false⟩⟩ := by
  have exact_ := copyOneSlotTruthful threeNodes slotOfK [97] [98,44,99,44]
  obtain ⟨out,ran,truthful⟩ := exact_.1.mpr fun _ src found => by
    cases Option.some.inj found
    exact ⟨_,rfl,fun _ => ⟨_,rfl,.inr (.inr ⟨by decide,.inl rfl,.inr ⟨rfl,.inl rfl⟩⟩)⟩⟩
  refine ⟨out,ran,truthful,exact_.2.2 (by decide) (by decide) out ran _ ?_⟩
  cases Except.ok.inj ran
  decide

/-- A list that does not end in a comma loses its last name: `c` gets nothing, and FINCOPY is sent. -/
theorem lastTargetLost : ¬ ∀ (s : Setting Bytes) (slot : Slot) (fromName toNames : Bytes),
    (∀ i, (keysOf slot s.source).length < (s.rounds i).length) →
    ∃ out, clusterManagerCommandCopyOneSlot s slot fromName toNames = .ok out ∧
      Truthful s (clusterNodeForResharding s.nodes fromName none).1 toNames out := by
  intro all
  obtain ⟨out,ran,truthful⟩ := all threeNodes slotOfK [97] [98,44,99] fun _ => (by decide : 2 < 3)
  cases Except.ok.inj ran
  have made := truthful.copied (.inl (by decide)) [99] (by decide) ⟨[99],false⟩ (by decide)
  exact absurd made (by decide)

end HpuCache.CopyOneSlot
