import HpuCache.ServerState

/-! `getNodeByQuery`: the node that serves a command, by the slots of its keys. The
slot is returned through a pointer, and several early returns leave that pointer
unwritten. -/
namespace HpuCache.NodeQuery
open ByteText KeySlot CommandCache ServerState

structure Query where
  node : Option NodeId
  -- What was stored through `hashslot`, if anything was.
  hashslot : Option Slot
  -- `none` is CLUSTER_REDIR_NONE.
  code : Option RedirCode
  deriving DecidableEq

/-- The accumulators of the key loop, once a first key has been seen. -/
structure Scan where
  firstkey : Bytes
  slot : Slot
  node : NodeId
  migratingSlot : Bool
  importingSlot : Bool
  multipleKeys : Bool
  missingKeys : Nat
  deriving DecidableEq

inductive Scanned where
  | panic
  | failed (code : RedirCode)
  | scanned (scan : Option Scan)

def countMissing (env : Env) (key : Bytes) (scan : Scan) : Scan :=
  if (scan.migratingSlot || scan.importingSlot) && !env.lookupKeyRead key then
    { scan with missingKeys := scan.missingKeys + 1 }
  else scan

def scanFirst (env : Env) (cl : ClusterState) (key : Bytes) : Except RedirCode Scan :=
  match cl.slots (keyHashSlot key) with
  | none => .error .downUnbound
  | some n =>
    let migrating := decide (n = cl.myself) && (cl.migratingSlotsTo (keyHashSlot key)).isSome
    let importing := !migrating && (cl.importingSlotsFrom (keyHashSlot key)).isSome
    .ok (countMissing env key ⟨key,keyHashSlot key,n,migrating,importing,false,0⟩)

def scanNext (env : Env) (key : Bytes) (scan : Scan) : Except RedirCode Scan :=
  if scan.firstkey = key then .ok (countMissing env key scan)
  else if scan.slot ≠ keyHashSlot key then .error .crossSlot
  else .ok (countMissing env key { scan with multipleKeys := true })

def scanKey (env : Env) (cl : ClusterState) (key : Bytes) : Option Scan → Except RedirCode Scan
  | none => scanFirst env cl key
  | some scan => scanNext env key scan

def scanKeys (env : Env) (cl : ClusterState) : List Bytes → Option Scan → Except RedirCode (Option Scan)
  | [], scan => .ok scan
  | key :: rest, scan =>
    match scanKey env cl key scan with
    | .error code => .error code
    | .ok scan => scanKeys env cl rest (some scan)

def scanCommands (env : Env) (cl : ClusterState) : List Queued → Option Scan → Scanned
  | [], scan => .scanned scan
  | q :: rest, scan =>
    match getKeysFromCommand q.cmd q.argv with
    | none => .panic
    | some keys =>
      match scanKeys env cl keys scan with
      | .error code => .failed code
      | .ok scan => scanCommands env cl rest scan

def queryCommands (c : Client) (cmd : RedisCommand) (argv : List Bytes) : List Queued :=
  if cmd.proc = .exec then c.mstate else [⟨cmd,argv⟩]

def isWriteCommand (c : Client) (cmd : RedisCommand) : Bool :=
  cmd.write || (cmd.proc = .exec && c.mstate.any (fun q => q.cmd.write))

/-- The decisions after the slot has been stored through the pointer. -/
def routeSlot (cl : ClusterState) (c : Client) (cmd : RedisCommand) (scan : Scan) : Query :=
  let open_ := scan.migratingSlot || scan.importingSlot
  if open_ && cmd.proc = .migrate then ⟨some cl.myself,some scan.slot,none⟩
  else if scan.migratingSlot && scan.missingKeys ≠ 0 then
    ⟨cl.migratingSlotsTo scan.slot,some scan.slot,some .ask⟩
  else if scan.importingSlot && (c.asking || cmd.asking) then
    if scan.multipleKeys && scan.missingKeys ≠ 0 then ⟨none,some scan.slot,some .unstable⟩
    else ⟨some cl.myself,some scan.slot,none⟩
  else if c.readonly && !isWriteCommand c cmd && cl.isSlave && decide (cl.slaveof = some scan.node) then
    ⟨some cl.myself,some scan.slot,none⟩
  else if scan.node ≠ cl.myself then ⟨some scan.node,some scan.slot,some .moved⟩
  else ⟨some scan.node,some scan.slot,none⟩

/-- `none` is the server panic. -/
def getNodeByQuery (env : Env) (cl : ClusterState) (c : Client) (cmd : RedisCommand)
    (argv : List Bytes) : Option Query :=
  if env.noRedirection then some ⟨some cl.myself,none,none⟩
  else if cmd.proc = .exec && !c.multi then some ⟨some cl.myself,none,none⟩
  else
    match scanCommands env cl (queryCommands c cmd argv) none with
    | .panic => none
    | .failed code => some ⟨none,none,some code⟩
    | .scanned none => some ⟨some cl.myself,none,none⟩
    | .scanned (some scan) =>
      if !cl.stateOk && !env.allowReadsWhenDown then some ⟨none,none,some .downState⟩
      else if !cl.stateOk && cmd.write then some ⟨none,none,some .downRoState⟩
      else some (routeSlot cl c cmd scan)

/-- `clusterRedirectClient`; `none` is a null node that is followed or the server panic. -/
def clusterRedirectClient (node : Option NodeId) (hashslot : Int) : Option RedirCode → Option Redirection
  | some .crossSlot => some (.error "-CROSSSLOT Keys in request don't hash to the same slot")
  | some .unstable => some (.error "-TRYAGAIN Multiple keys request during rehashing of slot")
  | some .downState => some (.error "-CLUSTERDOWN The cluster is down")
  | some .downRoState => some (.error "-CLUSTERDOWN The cluster is down and only accepts read commands")
  | some .downUnbound => some (.error "-CLUSTERDOWN Hash slot not served")
  | some .moved => node.map (.moved hashslot)
  | some .ask => node.map (.ask hashslot)
  | none => none

theorem countMissingSlot (env : Env) (key : Bytes) (scan : Scan) :
    (countMissing env key scan).slot = scan.slot ∧ (countMissing env key scan).node = scan.node ∧
    (countMissing env key scan).firstkey = scan.firstkey ∧
    (countMissing env key scan).migratingSlot = scan.migratingSlot ∧
    (countMissing env key scan).importingSlot = scan.importingSlot ∧
    (countMissing env key scan).multipleKeys = scan.multipleKeys := by
  unfold countMissing
  split <;> exact ⟨rfl,rfl,rfl,rfl,rfl,rfl⟩

/-- What a scan says about the first key it saw. -/
structure ScanSound (cl : ClusterState) (scan : Scan) : Prop where
  slot : scan.slot = keyHashSlot scan.firstkey
  owner : cl.slots scan.slot = some scan.node
  migrating : scan.migratingSlot = true →
    scan.node = cl.myself ∧ (cl.migratingSlotsTo scan.slot).isSome
  importing : scan.importingSlot = true → (cl.importingSlotsFrom scan.slot).isSome

theorem scanFirstSound {env cl key scan} (h : scanFirst env cl key = .ok scan) :
    ScanSound cl scan ∧ scan.slot = keyHashSlot key := by
  unfold scanFirst at h
  split at h <;> try contradiction
  rename_i n owner
  cases Except.ok.inj h
  have same := countMissingSlot env key ⟨key,keyHashSlot key,n,
    decide (n = cl.myself) && (cl.migratingSlotsTo (keyHashSlot key)).isSome,
    !(decide (n = cl.myself) && (cl.migratingSlotsTo (keyHashSlot key)).isSome) &&
      (cl.importingSlotsFrom (keyHashSlot key)).isSome,false,0⟩
  obtain ⟨slot,node,first,migrating,importing,_⟩ := same
  refine ⟨⟨by rw [slot,first],by rw [slot,node]; exact owner,?_,?_⟩,slot⟩
  · rw [migrating,node,slot,Bool.and_eq_true,decide_eq_true_eq]
    exact id
  · rw [importing,slot,Bool.and_eq_true]
    exact fun h => h.2

theorem scanNextSound {cl env key scan scan'} (sound : ScanSound cl scan)
    (h : scanNext env key scan = .ok scan') :
    ScanSound cl scan' ∧ scan'.slot = scan.slot ∧ scan.slot = keyHashSlot key := by
  have keep : ∀ s : Scan, s.slot = scan.slot → s.node = scan.node → s.firstkey = scan.firstkey →
      s.migratingSlot = scan.migratingSlot → s.importingSlot = scan.importingSlot →
      ScanSound cl s := by
    intro s slot node first migrating importing
    exact ⟨by rw [slot,first]; exact sound.slot,by rw [slot,node]; exact sound.owner,
      by rw [migrating,node,slot]; exact sound.migrating,
      by rw [importing,slot]; exact sound.importing⟩
  unfold scanNext at h
  split at h
  · rename_i same
    cases Except.ok.inj h
    obtain ⟨slot,node,first,migrating,importing,_⟩ := countMissingSlot env key scan
    exact ⟨keep _ slot node first migrating importing,slot,by rw [sound.slot,same]⟩
  · split at h <;> try contradiction
    rename_i same
    cases Except.ok.inj h
    obtain ⟨slot,node,first,migrating,importing,_⟩ :=
      countMissingSlot env key { scan with multipleKeys := true }
    exact ⟨keep _ slot node first migrating importing,slot,by simpa using same⟩

theorem scanKeysSound {env cl keys} {scan : Option Scan} {out : Option Scan}
    (sound : ∀ s, scan = some s → ScanSound cl s)
    (h : scanKeys env cl keys scan = .ok out) :
    (∀ s, out = some s → ScanSound cl s ∧ ∀ key ∈ keys, keyHashSlot key = s.slot) ∧
    (∀ s, scan = some s → ∃ s', out = some s' ∧ s'.slot = s.slot) ∧
    (out = none → scan = none ∧ keys = []) := by
  induction keys generalizing scan with
  | nil =>
    obtain rfl : scan = out := by simpa [scanKeys] using h
    exact ⟨fun s same => ⟨sound s same,by simp⟩,fun s same => ⟨s,same,rfl⟩,fun none => ⟨none,rfl⟩⟩
  | cons key rest ih =>
    simp only [scanKeys] at h
    split at h <;> try contradiction
    rename_i next ok
    have step : ScanSound cl next ∧ keyHashSlot key = next.slot ∧
        ∀ s, scan = some s → next.slot = s.slot := by
      cases scan with
      | none =>
        obtain ⟨here,slot⟩ := scanFirstSound ok
        exact ⟨here,slot.symm,by simp⟩
      | some s =>
        obtain ⟨here,slot,own⟩ := scanNextSound (sound s rfl) ok
        refine ⟨here,by rw [slot,own],?_⟩
        rintro t same
        cases Option.some.inj same
        exact slot
    obtain ⟨here,own,before⟩ := step
    have nextSound : ∀ s, some next = some s → ScanSound cl s := by
      rintro s same
      cases Option.some.inj same
      exact here
    obtain ⟨all,kept,_⟩ := ih nextSound h
    obtain ⟨last,same,slot⟩ := kept next rfl
    subst same
    refine ⟨?_,?_,by simp⟩
    · rintro s same
      cases Option.some.inj same
      refine ⟨(all last rfl).1,?_⟩
      intro k member
      rcases List.mem_cons.mp member with rfl | later
      · rw [own,slot]
      · exact (all last rfl).2 k later
    · rintro s same
      exact ⟨last,rfl,slot.trans (before s same)⟩

def allKeys : List Queued → Option (List Bytes)
  | [] => some []
  | q :: rest => do
    let keys ← getKeysFromCommand q.cmd q.argv
    let more ← allKeys rest
    some (keys ++ more)

/-- What the loops know of the keys seen so far: a scan that keeps `inv`, or no key yet. -/
def Holds (inv : List Bytes → Scan → Prop) (seen : List Bytes) : Option Scan → Prop
  | none => seen = []
  | some scan => inv seen scan

theorem scanKeysRule {env cl} {inv : List Bytes → Scan → Prop}
    (first : ∀ {key scan}, scanFirst env cl key = .ok scan → inv [key] scan)
    (next : ∀ {seen key scan after}, inv seen scan → scanNext env key scan = .ok after → inv (seen ++ [key]) after)
    {keys seen : List Bytes} {scan out : Option Scan} (before : Holds inv seen scan)
    (ok : scanKeys env cl keys scan = .ok out) : Holds inv (seen ++ keys) out := by
  induction keys generalizing seen scan with
  | nil =>
    obtain rfl := Except.ok.inj ok
    simpa using before
  | cons key rest ih =>
    simp only [scanKeys] at ok
    split at ok <;> try contradiction
    rename_i after took
    have step : Holds inv (seen ++ [key]) (some after) := by
      cases scan with
      | none =>
        obtain rfl : seen = [] := before
        exact first took
      | some scan => exact next before took
    simpa using ih step ok

theorem scanCommandsRule {env cl} {inv : List Bytes → Scan → Prop}
    (first : ∀ {key scan}, scanFirst env cl key = .ok scan → inv [key] scan)
    (next : ∀ {seen key scan after}, inv seen scan → scanNext env key scan = .ok after → inv (seen ++ [key]) after)
    {qs : List Queued} {keys seen : List Bytes} {scan out : Option Scan} (before : Holds inv seen scan)
    (ok : scanCommands env cl qs scan = .scanned out) (all : allKeys qs = some keys) :
      Holds inv (seen ++ keys) out := by
  induction qs generalizing seen scan keys with
  | nil =>
    obtain rfl := Scanned.scanned.inj ok
    obtain rfl := Option.some.inj all
    simpa using before
  | cons q rest ih =>
    simp only [scanCommands] at ok
    split at ok <;> try contradiction
    rename_i own got
    split at ok <;> try contradiction
    rename_i after took
    simp only [allKeys,got,bind,Option.bind_eq_some_iff,Option.some.injEq] at all
    obtain ⟨_,rfl,more,read,rfl⟩ := all
    simpa using ih (scanKeysRule first next before took) ok read

theorem scanCommandsSound {env cl qs} {scan : Option Scan} {out : Option Scan}
    (sound : ∀ s, scan = some s → ScanSound cl s)
    (h : scanCommands env cl qs scan = .scanned out) :
    ∃ keys, allKeys qs = some keys ∧
    (∀ s, out = some s → ScanSound cl s ∧ ∀ key ∈ keys, keyHashSlot key = s.slot) ∧
    (∀ s, scan = some s → ∃ s', out = some s' ∧ s'.slot = s.slot) ∧
    (out = none → scan = none ∧ keys = []) := by
  induction qs generalizing scan with
  | nil =>
    obtain rfl : scan = out := by simpa [scanCommands] using h
    exact ⟨[],rfl,fun s same => ⟨sound s same,by simp⟩,fun s same => ⟨s,same,rfl⟩,fun none => ⟨none,rfl⟩⟩
  | cons q rest ih =>
    simp only [scanCommands] at h
    split at h <;> try contradiction
    rename_i keys got
    split at h <;> try contradiction
    rename_i next ok
    obtain ⟨here,forward,bare⟩ := scanKeysSound sound ok
    obtain ⟨more,gotRest,all,kept,none⟩ := ih (fun s same => (here s same).1) h
    refine ⟨keys ++ more,by simp [allKeys,got,gotRest],?_,?_,?_⟩
    · intro s same
      refine ⟨(all s same).1,?_⟩
      intro key member
      rcases List.mem_append.mp member with left | right
      · cases next with
        | none => exact absurd left (by simp [(bare rfl).2])
        | some t =>
          obtain ⟨s',same',slot⟩ := kept t rfl
          cases Option.some.inj (same.symm.trans same')
          rw [slot]
          exact (here t rfl).2 key left
      · exact (all s same).2 key right
    · intro s same
      obtain ⟨t,same',slot⟩ := forward s same
      obtain ⟨u,last,slot'⟩ := kept t same'
      exact ⟨u,last,slot'.trans slot⟩
    · intro empty
      obtain ⟨nextNone,restNone⟩ := none empty
      obtain ⟨scanNone,keysNone⟩ := bare nextNone
      exact ⟨scanNone,by rw [keysNone,restNone]; rfl⟩

/-- A stored slot is the slot of every key of the command or transaction. -/
theorem storedSlot {env cl c cmd argv q slot} (h : getNodeByQuery env cl c cmd argv = some q)
    (stored : q.hashslot = some slot) :
    ∃ scan, scanCommands env cl (queryCommands c cmd argv) none = .scanned (some scan) ∧
      ScanSound cl scan ∧ scan.slot = slot ∧ q = routeSlot cl c cmd scan ∧
      ∃ keys, allKeys (queryCommands c cmd argv) = some keys ∧ ∀ key ∈ keys, keyHashSlot key = slot := by
  unfold getNodeByQuery at h
  split at h
  · cases Option.some.inj h; simp at stored
  split at h
  · cases Option.some.inj h; simp at stored
  split at h
  · contradiction
  · cases Option.some.inj h; simp at stored
  · cases Option.some.inj h; simp at stored
  rename_i scan scanned
  split at h
  · cases Option.some.inj h; simp at stored
  split at h
  · cases Option.some.inj h; simp at stored
  cases Option.some.inj h
  have own : scan.slot = slot := by
    unfold routeSlot at stored
    dsimp only at stored
    repeat' split at stored
    all_goals exact Option.some.inj stored
  obtain ⟨keys,got,all,_,_⟩ := scanCommandsSound (by simp) scanned
  exact ⟨scan,scanned,(all scan rfl).1,own,rfl,keys,got,fun key member => own ▸ (all scan rfl).2 key member⟩

/-- The codes of a query that stored its slot, with the node each one names. -/
theorem routeSlotCode {cl c cmd scan code} (coded : (routeSlot cl c cmd scan).code = some code) :
    (code = .ask ∧ (routeSlot cl c cmd scan).node = cl.migratingSlotsTo scan.slot ∧
      scan.migratingSlot = true) ∨
    code = .unstable ∨ (code = .moved ∧ (routeSlot cl c cmd scan).node = some scan.node) := by
  revert coded
  unfold routeSlot
  dsimp only
  split
  · simp
  split
  · rename_i migrating
    intro coded
    exact .inl ⟨(Option.some.inj coded).symm,rfl,(Bool.and_eq_true_iff.mp migrating).1⟩
  split
  · split
    · exact fun coded => .inr (.inl (Option.some.inj coded).symm)
    · simp
  split
  · simp
  split
  · exact fun coded => .inr (.inr ⟨(Option.some.inj coded).symm,rfl⟩)
  · simp

end HpuCache.NodeQuery
