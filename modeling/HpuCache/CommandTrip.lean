import HpuCache.FanOut

/-! A forwarded command from `addCmdToCache` through the flush to the magic branch of its
receiver. The cache measures every argument with `strlen`, and both sides take the key from a
fixed position. -/
namespace HpuCache.CommandTrip
open ByteText KeySlot KeyedDict CommandCache ServerState GroupCommands NodeQuery ProcessCommand SlotTrace MemberStep
open FanOut EventRun CommandTable

structure Place where
  slot : Slot
  key : Bytes
  deriving DecidableEq

def receiverPlace (argv : List Bytes) : Option Place := argv[3]?.map fun key => ⟨keyHashSlot key,key⟩

/-- One member of the group. Its state is what its past commands, cron iterations and packets left. -/
def memberNext (nodes : List NodeId) (cl : ClusterState) (event : MemberEvent) : Option ClusterState :=
  match memberStep nodes cl event with
  | .ok r => some r.cluster
  | .error _ => none

/-- The entry reaches `node`, gives back the command there unless it is stale, and is looked up
where the sender has cached it. -/
structure RoundTrip (order : IterOrder CacheOps) (cl : ClusterState) (slot : Slot) (node : NodeId) (argv : List Bytes)
    (op : CacheOps) : Prop where
  stored : ((added op (cl.slotStatus slot)).cachedOp).find op.key = some op
  sent : op ∈ sentTo node (broadcastCommandInHotGroup order cl.myself (added op (cl.slotStatus slot))).2
  stripped : ∀ cachedOp, magicBranch cachedOp op.argv = .stale ∨ magicBranch cachedOp op.argv = .inner argv
  place : receiverPlace op.argv = some ⟨slot,op.key⟩

/-- Nothing is cut, and the first argument belongs to the slot under which the command is cached. -/
def Whole (slot : Slot) (argv : List Bytes) : Prop :=
  (∀ a ∈ argv, ZeroFree a) ∧ argv[1]?.map keyHashSlot = some slot
instance (slot argv) : Decidable (Whole slot argv) := instDecidableAnd

section
variable {now : Ustime} {argv : List Bytes} {op : CacheOps} {slot : Slot}

theorem entryShape (built : cacheOps now argv = some op) : ∃ word key rest, argv = word :: key :: rest ∧
    op.argv = magicWord :: now.text :: cstr word :: cstr key :: rest.map cstr ∧ op.key = cstr key := by
  obtain ⟨long,shape⟩ := cacheOpsShape built
  match argv,long with
  | word :: key :: rest,_ => exact ⟨word,key,rest,rfl,shape,cacheOpsKey built⟩

theorem placeOf (built : cacheOps now argv = some op) : receiverPlace op.argv = some ⟨keyHashSlot op.key,op.key⟩ := by
  obtain ⟨word,key,rest,rfl,shape,own⟩ := entryShape built
  rw [own,receiverPlace,shape]
  rfl

theorem magicEntry (built : cacheOps now argv = some op) (cachedOp : Slot → OpDict) :
    magicBranch cachedOp op.argv =
      if ((cachedOp (keyHashSlot op.key)).find op.key).any (fun old => strtoll old.stamp > now.value) then .stale
      else .inner (body op) := by
  obtain ⟨word,key,rest,rfl,shape,own⟩ := entryShape built
  have magic : strncmpEqual magicWord magicWord 6 = true := rfl
  rw [own,body]
  simp only [magicBranch,shape,magic,if_true,List.getElem?_cons_succ,List.getElem?_cons_zero,strtollUstime]
  cases (cachedOp (keyHashSlot (cstr key))).find (cstr key) with
  | none => rfl
  | some old => simp

theorem strippedIff (built : cacheOps now argv = some op) :
    (∀ cachedOp, magicBranch cachedOp op.argv = .stale ∨ magicBranch cachedOp op.argv = .inner argv) ↔
      ∀ a ∈ argv, ZeroFree a := by
  constructor
  · intro stripped a inside
    have fresh := magicEntry built fun _ => .empty
    rcases stripped fun _ => .empty with stale | inner
    · rw [fresh] at stale
      contradiction
    · have back : body op = argv := Magic.inner.inj (fresh.symm.trans inner)
      have same : argv.map cstr = argv := by
        rw [body,(cacheOpsShape built).2] at back
        exact back
      obtain ⟨b,_,rfl⟩ := List.mem_map.mp (same.symm ▸ inside)
      exact zeroFreeCstr b
  · intro free cachedOp
    rw [magicEntry built,bodyVerbatim built free]
    split
    · exact .inl rfl
    · exact .inr rfl

end

theorem runBounded {nodes : List NodeId} {start cl : ClusterState} {past : List MemberEvent}
    (zeroed : ∀ s, start.slotStatus s = .zeroed) (run : Reach (Takes (memberNext nodes)) start past cl) (s : Slot) :
    Bounded (cl.slotStatus s) := by
  let bound := fun cl : ClusterState => Bounded (cl.slotStatus s)
  have preserved : ∀ {a event b}, bound a → Takes (memberNext nodes) a event b → bound b :=
      fun {a event b} bounded taken => by
    simp only [Takes,memberNext] at taken
    split at taken <;> try contradiction
    rename_i r ok
    obtain rfl := Option.some.inj taken
    exact traceBounded ((memberStepSpec ok).trace s) bounded
  have initial : bound start := by
    dsimp only [bound]
    rw [zeroed s]
    exact le_refl 0
  exact reachInvariant initial preserved run

/-- The round trip holds for exactly the commands without zero bytes that are cached under the
slot of their first argument. -/
theorem commandTrip {nodes : List NodeId} {start cl : ClusterState} {past : List MemberEvent}
    (zeroed : ∀ s, start.slotStatus s = .zeroed) (run : Reach (Takes (memberNext nodes)) start past cl) {slot : Slot}
    {now : Ustime} {argv : List Bytes} (long : 2 ≤ argv.length) (order : IterOrder CacheOps) {node : NodeId}
    (member : node ∈ (cl.slotStatus slot).relatedIns.entries) (other : node ≠ cl.myself) :
    ∃ op, cacheOps now argv = some op ∧ addCmdToCache now argv (cl.slotStatus slot) =
      some (added op (cl.slotStatus slot)) ∧
      (RoundTrip order cl slot node argv op ↔ Whole slot argv) := by
  obtain ⟨op,built⟩ := cacheOpsOf now long
  refine ⟨op,built,by simp [addCmdToCache,built,added],?_⟩
  obtain ⟨word,key,rest,rfl,_,own⟩ := entryShape built
  have sent : op ∈ sentTo node (broadcastCommandInHotGroup order cl.myself (added op (cl.slotStatus slot))).2 := by
    rw [broadcastSentTo order cl.myself _ (addedBounded op (runBounded zeroed run slot)) node,if_pos ⟨member,other⟩]
    exact (order.perm _).mem_iff.mpr (Dict.memReplace.mpr (.inl rfl))
  constructor
  · intro trip
    have free := (strippedIff built).mp trip.stripped
    refine ⟨free,?_⟩
    have place := (placeOf built).symm.trans trip.place
    rw [Option.some_inj,Place.mk.injEq,own,cstrZeroFree (free key (by simp))] at place
    exact congrArg some place.1
  · rintro ⟨free,home⟩
    have place : keyHashSlot op.key = slot := by
      rw [own,cstrZeroFree (free key (by simp))]
      exact Option.some.inj home
    exact ⟨Dict.findReplaceSame _ op,sent,(strippedIff built).mpr free,place ▸ placeOf built⟩

def groupOwner : ClusterState := .initial 1 1

def peerJoins : List MemberEvent := [.packet (clusterBroadcastOwnAsHotInstance 2 (keyHashSlot letterK) 1)]

def setPlain : List Bytes := [textSet,letterK,letterA]

theorem peerJoined : ∃ cl, Reach (Takes (memberNext knownNodes)) groupOwner peerJoins.reverse cl ∧
    2 ∈ (cl.slotStatus (keyHashSlot letterK)).relatedIns.entries ∧ 2 ≠ cl.myself := by
  have seen : (replay (memberNext knownNodes) groupOwner peerJoins).any (fun cl =>
      decide (2 ∈ (cl.slotStatus (keyHashSlot letterK)).relatedIns.entries) && decide (2 ≠ cl.myself)) = true := by
    decide +kernel
  obtain ⟨cl,done,joined⟩ := replaySeen seen
  simp only [Bool.and_eq_true,decide_eq_true_eq] at joined
  exact ⟨cl,replayReach done,joined⟩

theorem commandTripShown : ∃ cl op, cacheOps (clock 0) setPlain = some op ∧
    RoundTrip .asStored cl (keyHashSlot letterK) 2 setPlain op := by
  obtain ⟨cl,run,member,other⟩ := peerJoined
  have long : 2 ≤ setPlain.length := by decide
  obtain ⟨op,built,_,trip⟩ := commandTrip (fun _ => rfl) run long .asStored member other
  exact ⟨cl,op,built,trip.mpr (by decide +kernel)⟩

def setCut : List Bytes := [textSet,letterK,[97,0,98]]

/-- The value arrives cut at its zero byte. -/
theorem argumentCut : ∃ cl op, Reach (Takes (memberNext knownNodes)) groupOwner peerJoins.reverse cl ∧
    cacheOps (clock 0) setCut = some op ∧
    magicBranch (fun _ => .empty) op.argv = .inner [textSet,letterK,letterA] ∧
    ¬ RoundTrip .asStored cl (keyHashSlot letterK) 2 setCut op := by
  obtain ⟨cl,run,member,other⟩ := peerJoined
  obtain ⟨op,built⟩ := @cacheOpsOf (clock 0) setCut (by decide)
  have received : magicBranch (fun _ => .empty) op.argv = .inner [textSet,letterK,letterA] := by
    rw [magicEntry built,body,(cacheOpsShape built).2]
    rfl
  refine ⟨cl,op,run,built,received,fun trip => ?_⟩
  rcases trip.stripped fun _ => .empty with stale | whole
  · rw [received] at stale
    contradiction
  · rw [received] at whole
    exact absurd (Magic.inner.inj whole) (by decide)

end HpuCache.CommandTrip
