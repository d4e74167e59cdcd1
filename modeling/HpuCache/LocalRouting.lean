import HpuCache.CommandTable
import HpuCache.NodeQuery

/-! What it means that a query names this node. The key loop compares every key with the
first one only, and what it counts on the way decides among the returns after it. -/
namespace HpuCache.LocalRouting
open ByteText KeySlot CommandCache ServerState NodeQuery CommandTable

/-- The reasons to serve a command with these keys here. -/
inductive ServedHere (env : Env) (cl : ClusterState) (c : Client) (cmd : RedisCommand) (slot : Slot)
    (keys : List Bytes) :
    Prop where
  | owned (owner : cl.slots slot = some cl.myself)
      (present : (cl.migratingSlotsTo slot).isSome → cmd.proc ≠ .migrate → ∀ key ∈ keys, env.lookupKeyRead key = true)
  | migrate (marked : (cl.importingSlotsFrom slot).isSome ∨ (cl.migratingSlotsTo slot).isSome)
      (moves : cmd.proc = .migrate)
  | asked (marked : (cl.importingSlotsFrom slot).isSome) (asking : c.asking = true ∨ cmd.asking = true)
      (present : (∃ a ∈ keys, ∃ b ∈ keys, a ≠ b) → ∀ key ∈ keys, env.lookupKeyRead key = true)
  | replica (readonly : c.readonly = true) (reads : isWriteCommand c cmd = false) (slave : cl.isSlave = true)
      (owner : ∃ node, cl.slots slot = some node ∧ cl.slaveof = some node)

/-- The slot is marked as migrating to this node itself, and some key is not here. -/
structure AsksItself (env : Env) (cl : ClusterState) (cmd : RedisCommand) (slot : Slot) (keys : List Bytes) : Prop where
  owner : cl.slots slot = some cl.myself
  target : cl.migratingSlotsTo slot = some cl.myself
  stays : cmd.proc ≠ .migrate
  missing : ∃ key ∈ keys, env.lookupKeyRead key = false

/-- The cluster state lets a command with keys through. -/
def Up (env : Env) (cl : ClusterState) (cmd : RedisCommand) : Prop :=
  cl.stateOk = true ∨ (env.allowReadsWhenDown = true ∧ cmd.write = false)

/-- What lets a node serve keys that it may not have: the client was asked to come for one key, or it
reads at a replica of the owner. -/
def Excused (cl : ClusterState) (c : Client) (cmd : RedisCommand) (slot : Slot) (keys : List Bytes) : Prop :=
  ((cl.importingSlotsFrom slot).isSome ∧ (c.asking = true ∨ cmd.asking = true) ∧ ∀ a ∈ keys, ∀ b ∈ keys, a = b) ∨
    (c.readonly = true ∧ isWriteCommand c cmd = false ∧ cl.isSlave = true ∧ cl.slaveof = some cl.myself)

/-- The keys of one slot that this node owns and moves to itself, and it does not have all of them. -/
def Astray (env : Env) (cl : ClusterState) (c : Client) (cmd : RedisCommand) (keys : List Bytes) : Prop :=
  ∃ slot, (∀ key ∈ keys, keyHashSlot key = slot) ∧ AsksItself env cl cmd slot keys ∧ Up env cl cmd ∧
    ¬ Excused cl c cmd slot keys

/-- A query that names this node has stored the one slot of all keys, and there is a reason to serve it. -/
def RoutedWell (env : Env) (cl : ClusterState) (c : Client) (cmd : RedisCommand) (argv keys : List Bytes) : Prop :=
  ∀ q, getNodeByQuery env cl c cmd argv = some q → q.node = some cl.myself →
    ∃ slot, q.hashslot = some slot ∧ (∀ key ∈ keys, keyHashSlot key = slot) ∧ ServedHere env cl c cmd slot keys

/-- What the flags of a scan say about all the keys it has seen. -/
structure Seen (env : Env) (cl : ClusterState) (keys : List Bytes) (scan : Scan) : Prop where
  sound : ScanSound cl scan
  slots : ∀ key ∈ keys, keyHashSlot key = scan.slot
  marks : scan.migratingSlot = (decide (scan.node = cl.myself) && (cl.migratingSlotsTo scan.slot).isSome)
  counted : (scan.migratingSlot || scan.importingSlot) = true →
    (scan.missingKeys = 0 ↔ ∀ key ∈ keys, env.lookupKeyRead key = true)
  single : scan.multipleKeys = false → ∀ key ∈ keys, key = scan.firstkey

section
variable {env : Env} {cl : ClusterState} {scan after : Scan} {key : Bytes} {keys : List Bytes}

theorem missingStep (open_ : (scan.migratingSlot || scan.importingSlot) = true) :
    (countMissing env key scan).missingKeys = 0 ↔ scan.missingKeys = 0 ∧ env.lookupKeyRead key = true := by
  simp only [countMissing,open_,Bool.true_and]
  cases env.lookupKeyRead key <;> simp

theorem Seen.count (seen : Seen env cl keys scan) (slot : keyHashSlot key = scan.slot)
    (single : scan.multipleKeys = false → key = scan.firstkey) :
      Seen env cl (keys ++ [key]) (countMissing env key scan) := by
  obtain ⟨sameSlot,sameNode,sameFirst,sameMigrating,sameImporting,sameMultiple⟩ := countMissingSlot env key scan
  have all {p : Bytes → Prop} (before : ∀ k ∈ keys, p k) (now : p key) : ∀ k ∈ keys ++ [key], p k := by
    intro k inside
    rcases List.mem_append.mp inside with old | new
    · exact before k old
    · exact List.mem_singleton.mp new ▸ now
  refine ⟨⟨?_,?_,?_,?_⟩,?_,?_,fun open_ => ?_,fun one => ?_⟩
  · rw [sameSlot,sameFirst]
    exact seen.sound.slot
  · rw [sameSlot,sameNode]
    exact seen.sound.owner
  · rw [sameMigrating,sameNode,sameSlot]
    exact seen.sound.migrating
  · rw [sameImporting,sameSlot]
    exact seen.sound.importing
  · rw [sameSlot]
    exact all seen.slots slot
  · rw [sameMigrating,sameNode,sameSlot]
    exact seen.marks
  · rw [sameMigrating,sameImporting] at open_
    rw [missingStep open_,seen.counted open_]
    refine ⟨fun ⟨before,now⟩ => all before now,fun every => ⟨fun k inside => ?_,every key (by simp)⟩⟩
    exact every k (List.mem_append_left _ inside)
  · rw [sameMultiple] at one
    rw [sameFirst]
    exact all (seen.single one) (single one)

theorem seenFirst (took : scanFirst env cl key = .ok scan) : Seen env cl [key] scan := by
  simp only [scanFirst] at took
  split at took <;> try contradiction
  rename_i n owner
  cases Except.ok.inj took
  have bare (migrating importing : Bool)
      (marks : migrating = (decide (n = cl.myself) && (cl.migratingSlotsTo (keyHashSlot key)).isSome))
      (from_ : importing = true → (cl.importingSlotsFrom (keyHashSlot key)).isSome) :
      Seen env cl [] ⟨key,keyHashSlot key,n,migrating,importing,false,0⟩ :=
    ⟨⟨rfl,owner,fun on => by simpa using marks.symm.trans on,from_⟩,nofun,marks,fun _ => by simp,fun _ => nofun⟩
  exact (bare _ _ rfl fun on => (Bool.and_eq_true_iff.mp on).2).count rfl fun _ => rfl

theorem seenNext (seen : Seen env cl keys scan) (took : scanNext env key scan = .ok after) :
    Seen env cl (keys ++ [key]) after := by
  simp only [scanNext] at took
  split at took
  · rename_i first
    cases Except.ok.inj took
    exact seen.count (first ▸ seen.sound.slot.symm) fun _ => first.symm
  · split at took <;> try contradiction
    rename_i same
    cases Except.ok.inj took
    have several : Seen env cl keys { scan with multipleKeys := true } :=
      ⟨⟨seen.sound.slot,seen.sound.owner,seen.sound.migrating,seen.sound.importing⟩,seen.slots,seen.marks,seen.counted,
        nofun⟩
    exact several.count (not_not.mp same).symm nofun

theorem routeSlotStored (cl : ClusterState) (c : Client) (cmd : RedisCommand) (scan : Scan) :
    (routeSlot cl c cmd scan).hashslot = some scan.slot := by
  simp only [routeSlot]
  repeat' split
  all_goals rfl

theorem seenAll {c : Client} {cmd : RedisCommand} {argv : List Bytes}
    (scanned : scanCommands env cl (queryCommands c cmd argv) none = .scanned (some scan))
    (read : allKeys (queryCommands c cmd argv) = some keys) : Seen env cl keys scan := by
  have bare : Holds (Seen env cl) [] none := rfl
  exact scanCommandsRule seenFirst seenNext bare scanned read

theorem Seen.lost (seen : Seen env cl keys scan) (open_ : (scan.migratingSlot || scan.importingSlot) = true)
    (missing : scan.missingKeys ≠ 0) : ∃ key ∈ keys, env.lookupKeyRead key = false := by
  by_contra whole
  refine missing ((seen.counted open_).mpr fun key inside => ?_)
  exact Bool.not_eq_false _ ▸ fun absent => whole ⟨key,inside,absent⟩

theorem Seen.several (seen : Seen env cl keys scan) (differ : ∃ a ∈ keys, ∃ b ∈ keys, a ≠ b) :
    scan.multipleKeys = true := by
  obtain ⟨a,insideA,b,insideB,apart⟩ := differ
  by_contra one
  have single := seen.single (Bool.eq_false_iff.mpr one)
  exact apart ((single a insideA).trans (single b insideB).symm)

/-- The returns after the loop, each with what makes it right. -/
theorem routeHere {c : Client} {cmd : RedisCommand} (seen : Seen env cl keys scan)
    (here : (routeSlot cl c cmd scan).node = some cl.myself) :
    ServedHere env cl c cmd scan.slot keys ∨ AsksItself env cl cmd scan.slot keys := by
  have owner := seen.sound.owner
  revert here
  simp only [routeSlot]
  split
  · rename_i move
    obtain ⟨marked,migrate⟩ := Bool.and_eq_true_iff.mp move
    refine fun _ => .inl (.migrate ?_ (of_decide_eq_true migrate))
    rcases Bool.or_eq_true_iff.mp marked with migrating | importing
    · exact .inr (seen.sound.migrating migrating).2
    · exact .inl (seen.sound.importing importing)
  rename_i stays
  split
  · rename_i lost
    obtain ⟨migrating,missing⟩ := Bool.and_eq_true_iff.mp lost
    have open_ : (scan.migratingSlot || scan.importingSlot) = true := by rw [migrating,Bool.true_or]
    intro target
    refine .inr ⟨(seen.sound.migrating migrating).1 ▸ owner,target,?_,?_⟩
    · simpa [open_] using stays
    · exact seen.lost open_ (of_decide_eq_true missing)
  rename_i whole
  split
  · rename_i asked
    obtain ⟨importing,asking⟩ := Bool.and_eq_true_iff.mp asked
    have open_ : (scan.migratingSlot || scan.importingSlot) = true := by rw [importing,Bool.or_true]
    split
    · nofun
    · rename_i present
      refine fun _ => .inl (.asked (seen.sound.importing importing) (Bool.or_eq_true_iff.mp asking) fun differ => ?_)
      exact (seen.counted open_).mp (by simpa [seen.several differ] using present)
  split
  · rename_i follows
    simp only [Bool.and_eq_true,Bool.not_eq_true',decide_eq_true_eq] at follows
    obtain ⟨⟨⟨readonly,reads⟩,slave⟩,master⟩ := follows
    exact fun _ => .inl (.replica readonly reads slave ⟨scan.node,owner,master⟩)
  have owned (own : scan.node = cl.myself) : ServedHere env cl c cmd scan.slot keys := by
    refine .owned (own ▸ owner) fun leaving _ => ?_
    have migrating : scan.migratingSlot = true := by rw [seen.marks,decide_eq_true own,leaving]; rfl
    exact (seen.counted (by rw [migrating,Bool.true_or])).mp (by simpa [migrating] using whole)
  split
  · rename_i away
    exact fun here => absurd (Option.some.inj here) away
  · rename_i own
    exact fun _ => .inl (owned (not_not.mp own))

/-- A slot that migrates to this node: the answer is this node although a key is missing. -/
theorem routeItself {c : Client} {cmd : RedisCommand} (seen : Seen env cl keys scan)
    (itself : AsksItself env cl cmd scan.slot keys) : routeSlot cl c cmd scan = ⟨some cl.myself,some scan.slot,some .ask⟩ := by
  have own : scan.node = cl.myself := Option.some.inj (seen.sound.owner.symm.trans itself.owner)
  have migrating : scan.migratingSlot = true := by rw [seen.marks,own,itself.target]; simp
  have missing : scan.missingKeys ≠ 0 := by
    intro none
    obtain ⟨key,inside,absent⟩ := itself.missing
    have here := (seen.counted (by rw [migrating,Bool.true_or])).mp none key inside
    rw [absent] at here
    contradiction
  rw [routeSlot]
  simp [migrating,missing,itself.stays,itself.target]

theorem keyTaken {slot : Slot} {n : NodeId} {start : Option Scan} (here : keyHashSlot key = slot)
    (owner : cl.slots slot = some n) (known : ∀ s, start = some s → s.slot = slot) :
    ∃ out, scanKey env cl key start = .ok out ∧ out.slot = slot := by
  cases start with
  | none =>
    rw [scanKey,scanFirst,here,owner]
    exact ⟨_,rfl,(countMissingSlot env key _).1⟩
  | some s =>
    rw [scanKey,scanNext]
    split
    · exact ⟨_,rfl,(countMissingSlot env key _).1.trans (known s rfl)⟩
    · rw [if_neg (by rw [known s rfl,here]; exact not_not.mpr rfl)]
      exact ⟨_,rfl,(countMissingSlot env key _).1.trans (known s rfl)⟩

theorem keysTaken {slot : Slot} {n : NodeId} {start : Option Scan} (here : ∀ key ∈ keys, keyHashSlot key = slot)
    (owner : cl.slots slot = some n) (known : ∀ s, start = some s → s.slot = slot) :
    ∃ out, scanKeys env cl keys start = .ok out ∧ ∀ s, out = some s → s.slot = slot := by
  induction keys generalizing start with
  | nil => exact ⟨start,rfl,known⟩
  | cons key rest ih =>
    obtain ⟨next,took,own⟩ := @keyTaken env cl key slot n start (here key List.mem_cons_self) owner known
    obtain ⟨out,done,kept⟩ := @ih (some next) (fun k inside => here k (List.mem_cons_of_mem _ inside))
      fun s same => Option.some.inj same ▸ own
    exact ⟨out,by rw [scanKeys,took]; exact done,kept⟩

theorem commandsTaken {slot : Slot} {n : NodeId} {qs : List Queued} {start : Option Scan} (read : allKeys qs = some keys)
    (here : ∀ key ∈ keys, keyHashSlot key = slot) (owner : cl.slots slot = some n)
    (known : ∀ s, start = some s → s.slot = slot) : ∃ out, scanCommands env cl qs start = .scanned out := by
  induction qs generalizing start keys with
  | nil => exact ⟨start,rfl⟩
  | cons q rest ih =>
    simp only [allKeys,bind,Option.bind_eq_some_iff,Option.some.injEq] at read
    obtain ⟨own,got,more,later,rfl⟩ := read
    obtain ⟨next,took,kept⟩ := @keysTaken env cl own slot n start (fun k inside => here k (List.mem_append_left _ inside))
      owner known
    obtain ⟨out,done⟩ := ih later (fun k inside => here k (List.mem_append_right _ inside)) kept
    exact ⟨out,by rw [scanCommands,got]; dsimp only; rw [took]; exact done⟩

end

section
variable {env : Env} {cl : ClusterState} {c : Client} {cmd : RedisCommand} {argv : List Bytes} {keys : List Bytes}

theorem execGuard (transaction : cmd.proc = .exec → c.multi = true) : (decide (cmd.proc = .exec) && !c.multi) = false := by
  cases exec : decide (cmd.proc = .exec) with
  | false => rfl
  | true => simp [transaction (of_decide_eq_true exec)]

theorem upIff : Up env cl cmd ↔ (!cl.stateOk && !env.allowReadsWhenDown) = false ∧ (!cl.stateOk && cmd.write) = false := by
  rw [Up]
  cases cl.stateOk <;> cases env.allowReadsWhenDown <;> simp

/-- Where there are keys, an answer that names this node was given behind the loops. -/
theorem answerHere (redirects : env.noRedirection = false) (transaction : cmd.proc = .exec → c.multi = true)
    (read : allKeys (queryCommands c cmd argv) = some keys) (keyed : keys ≠ []) {q : Query}
    (asked : getNodeByQuery env cl c cmd argv = some q) (here : q.node = some cl.myself) :
    ∃ scan, Seen env cl keys scan ∧ Up env cl cmd ∧ q = routeSlot cl c cmd scan := by
  simp only [getNodeByQuery,redirects,execGuard transaction,Bool.false_eq_true,if_false] at asked
  split at asked
  · contradiction
  · cases Option.some.inj asked
    contradiction
  · rename_i bare
    have none : Holds (Seen env cl) [] none := rfl
    exact absurd (scanCommandsRule seenFirst seenNext none bare read) keyed
  · rename_i scan scanned
    split at asked
    · cases Option.some.inj asked
      contradiction
    rename_i reads
    split at asked
    · cases Option.some.inj asked
      contradiction
    rename_i writes
    cases Option.some.inj asked
    exact ⟨scan,seenAll scanned read,upIff.mpr ⟨Bool.eq_false_iff.mpr reads,Bool.eq_false_iff.mpr writes⟩,rfl⟩

theorem answerItself (redirects : env.noRedirection = false) (transaction : cmd.proc = .exec → c.multi = true)
    (read : allKeys (queryCommands c cmd argv) = some keys) (keyed : keys ≠ []) {slot : Slot}
    (slots : ∀ key ∈ keys, keyHashSlot key = slot) (itself : AsksItself env cl cmd slot keys) (up : Up env cl cmd) :
    getNodeByQuery env cl c cmd argv = some ⟨some cl.myself,some slot,some .ask⟩ := by
  obtain ⟨reads,writes⟩ := upIff.mp up
  obtain ⟨out,scanned⟩ := @commandsTaken env cl keys slot cl.myself _ none read slots itself.owner nofun
  cases out with
  | none =>
    have none : Holds (Seen env cl) [] none := rfl
    exact absurd (scanCommandsRule seenFirst seenNext none scanned read) keyed
  | some scan =>
    have seen := seenAll scanned read
    obtain ⟨key,inside⟩ := List.exists_mem_of_ne_nil keys keyed
    obtain rfl : scan.slot = slot := (seen.slots key inside).symm.trans (slots key inside)
    simp only [getNodeByQuery,redirects,execGuard transaction,scanned,reads,writes,Bool.false_eq_true,if_false]
    rw [routeItself seen itself]

end

/-- Every answer that names this node is right, if and only if the keys are not those of a slot that migrates
to this node itself while some of them are missing. -/
theorem localRouting {env : Env} {cl : ClusterState} {c : Client} {cmd : RedisCommand} {argv : List Bytes}
    {keys : List Bytes} (redirects : env.noRedirection = false) (transaction : cmd.proc = .exec → c.multi = true)
    (read : allKeys (queryCommands c cmd argv) = some keys) (keyed : keys ≠ []) :
    RoutedWell env cl c cmd argv keys ↔ ¬ Astray env cl c cmd keys := by
  constructor
  · rintro well ⟨slot,slots,itself,up,unexcused⟩
    obtain ⟨_,stored,_,served⟩ := well _ (answerItself redirects transaction read keyed slots itself up) rfl
    obtain rfl := Option.some.inj stored
    obtain ⟨key,inside,absent⟩ := itself.missing
    cases served with
    | owned _ present =>
      have here := present (by rw [itself.target]; rfl) itself.stays key inside
      rw [absent] at here
      contradiction
    | migrate _ moves => exact itself.stays moves
    | asked marked asking present =>
      refine unexcused (.inl ⟨marked,asking,fun a insideA b insideB => ?_⟩)
      by_contra apart
      have here := present ⟨a,insideA,b,insideB,apart⟩ key inside
      rw [absent] at here
      contradiction
    | replica readonly reads slave owner =>
      obtain ⟨node,owns,master⟩ := owner
      exact unexcused (.inr ⟨readonly,reads,slave,master.trans (owns.symm.trans itself.owner)⟩)
  · intro settled q asked here
    obtain ⟨scan,seen,up,rfl⟩ := answerHere redirects transaction read keyed asked here
    refine ⟨scan.slot,routeSlotStored cl c cmd scan,seen.slots,?_⟩
    rcases routeHere seen here with served | itself
    · exact served
    · have excused := not_not.mp fun none => settled ⟨scan.slot,seen.slots,itself,up,none⟩
      rcases excused with ⟨marked,asking,single⟩ | ⟨readonly,reads,slave,master⟩
      · refine .asked marked asking ?_
        rintro ⟨a,insideA,b,insideB,apart⟩
        exact absurd (single a insideA b insideB) apart
      · exact .replica readonly reads slave ⟨cl.myself,itself.owner,master⟩

def readK : List Bytes := [textGet,letterK]

def soleOwner : ClusterState := .initial 0 0

theorem localRoutingShown : ∃ slot, keyHashSlot letterK = slot ∧
    ServedHere (calm (clock 0)) soleOwner .fresh getEntry slot [letterK] := by
  have shape : (getNodeByQuery (calm (clock 0)) soleOwner .fresh getEntry readK).any
      (fun q => q.node == some 0) = true := by decide +kernel
  obtain ⟨q,asked,here⟩ := (Option.any_eq_true _ _).mp shape
  have read : allKeys (queryCommands .fresh getEntry readK) = some [letterK] := by decide
  have settled : ¬ Astray (calm (clock 0)) soleOwner .fresh getEntry [letterK] := by
    rintro ⟨_,_,itself,_⟩
    exact absurd itself.target nofun
  obtain ⟨slot,_,slots,served⟩ := (localRouting rfl (by decide) read (by decide)).mpr settled q asked (eq_of_beq here)
  exact ⟨slot,slots letterK (by decide),served⟩

def selfMigrating : ClusterState := { soleOwner with migratingSlotsTo := fun _ => some 0 }

def keyAbsent : Env := { calm (clock 0) with lookupKeyRead := fun _ => false }

theorem servedWithoutKey : keyAbsent.noRedirection = false ∧ allKeys (queryCommands .fresh getEntry readK) = some [letterK] ∧
    ¬ RoutedWell keyAbsent selfMigrating .fresh getEntry readK [letterK] := by
  refine ⟨rfl,by decide,fun sound => ?_⟩
  have shape : (getNodeByQuery keyAbsent selfMigrating .fresh getEntry readK).any
      (fun q => q.node == some 0) = true := by decide +kernel
  obtain ⟨q,asked,here⟩ := (Option.any_eq_true _ _).mp shape
  obtain ⟨slot,_,_,served⟩ := sound q asked (eq_of_beq here)
  cases served with
  | owned _ present => exact absurd (present rfl (by decide) letterK (by decide)) (by decide)
  | migrate _ moves => exact absurd moves (by decide)
  | asked marked => exact absurd marked Bool.false_ne_true
  | replica readonly => exact absurd readonly (by decide)

end HpuCache.LocalRouting
