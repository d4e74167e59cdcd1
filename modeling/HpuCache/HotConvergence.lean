import HpuCache.EventRun
import HpuCache.FifoLinks
import HpuCache.LastWriter
import HpuCache.SlotTrace
import HpuCache.WriteCommands

/-! The members of a hot group and the assignments of their clients. A member drops a
forwarded write only against a newer one of its own that it has not sent yet, so a
write can overtake a newer one. As long as none does, the members end up equal. -/
namespace HpuCache.HotConvergence
open ByteText KeySlot KeyedDict CommandCache ServerState ProcessCommand SlotTrace CommandTable WriteCommands
open EventRun FifoLinks LastWriter

/-- A SET of a client, with the member that took it and the clock it was stamped with. -/
structure ClientWrite where
  source : NodeId
  now : Ustime
  key : Bytes
  value : Bytes
  deriving DecidableEq

def ClientWrite.argv (w : ClientWrite) : List Bytes := [textSet,w.key,w.value]

def ClientWrite.op (w : ClientWrite) : CacheOps := ⟨magicWord :: w.now.text :: w.argv.map cstr,by simp [ClientWrite.argv]⟩

structure Net where
  -- The state of the hot slot and the contents, at each member.
  member : NodeId → SlotState
  store : NodeId → Contents
  links : Links NodeId CacheOps
  -- The writes of the clients, and those each member has executed, latest first.
  issued : List ClientWrite
  ran : NodeId → List CacheOps

inductive Event where
  | write (w : ClientWrite)
  | flush (x : NodeId) (order : IterOrder CacheOps)
  | deliver (x y : NodeId)

def cachedAt (hot : Slot) (st : SlotState) (slot : Slot) : OpDict := if slot = hot then st.cachedOp else .empty

/-- The clocks: no two writes have the same stamp, and those of one member grow. -/
def Stamped (issued : List ClientWrite) (w : ClientWrite) : Prop :=
  ∀ v ∈ issued, v.now ≠ w.now ∧ (v.source = w.source → v.now.value < w.now.value)

instance (issued w) : Decidable (Stamped issued w) := by unfold Stamped; infer_instance

def step (nodes : List NodeId) (hot : Slot) (net : Net) : Event → Option Net
  | .write w =>
    if w.source ∈ nodes ∧ keyHashSlot w.key = hot ∧ Stamped net.issued w then
      match addCmdToCache w.now w.argv (net.member w.source) with
      | none => none
      | some st => some ⟨Function.update net.member w.source st,
          Function.update net.store w.source (execWrite w.argv (net.store w.source)),net.links,w :: net.issued,
          Function.update net.ran w.source (w.op :: net.ran w.source)⟩
    else none
  | .flush x order =>
    if x ∈ nodes then
      let flushed := broadcastCommandInHotGroup order x (net.member x)
      some { net with
        member := Function.update net.member x flushed.1,
        links := post net.links x (fun y => sentTo y flushed.2) }
    else none
  | .deliver x y =>
    match net.links x y with
    | [] => none
    | op :: rest =>
      match magicBranch (cachedAt hot (net.member y)) op.argv with
      | .inner argv => some { net with
          store := Function.update net.store y (execWrite argv (net.store y)),
          links := withdraw net.links x y rest,
          ran := Function.update net.ran y (op :: net.ran y) }
      | .stale => some { net with links := withdraw net.links x y rest }
      | _ => none

structure Started (nodes : List NodeId) (initial : Contents) (net : Net) : Prop where
  copied : ∀ x ∈ nodes, (net.member x).isCopied = true
  group : ∀ x ∈ nodes, ∀ y, y ∈ (net.member x).relatedIns.entries ↔ y ∈ nodes
  bare : ∀ x, (net.member x).cachedOp.entries = []
  counted : ∀ x, 0 ≤ (net.member x).cacheOpSize
  store : ∀ x, net.store x = initial
  links : Quiet net.links
  issued : net.issued = []
  ran : ∀ x, net.ran x = []

structure Settled (nodes : List NodeId) (net : Net) : Prop where
  links : ∀ x ∈ nodes, ∀ y ∈ nodes, net.links x y = []
  bare : ∀ x ∈ nodes, (net.member x).cachedOp.entries = []

/-- The contents that the newest write of each key decides. -/
structure Newest (initial : Contents) (issued : List ClientWrite) (contents : Contents) : Prop where
  written : ∀ w ∈ issued, (∀ v ∈ issued, v.key = w.key → v.now.value ≤ w.now.value) →
    contents w.key = some (.string w.value)
  untouched : ∀ key, (∀ w ∈ issued, w.key ≠ key) → contents key = initial key

def stampOf (op : CacheOps) : Int := strtoll op.stamp
def valueOf (op : CacheOps) : Bytes := op.argv.getD 4 []

def dropped (hot : Slot) (net : Net) (y : NodeId) (op : CacheOps) : Bool :=
  match magicBranch (cachedAt hot (net.member y)) op.argv with
  | .stale => true
  | _ => false

/-- What is asked of a step: no member executes a write of a key, its own or a delivered one
that it does not drop, after a newer one; and the cache keeps the arguments whole. -/
def StepOk (hot : Slot) (net : Net) : Event → Prop
  | .write w => ZeroFree w.key ∧ ZeroFree w.value ∧
      ∀ op ∈ net.ran w.source, op.key = w.key → stampOf op < w.now.value
  | .flush _ _ => True
  | .deliver x y => ∀ op rest, net.links x y = op :: rest → dropped hot net y op = false →
      ∀ old ∈ net.ran y, old.key = op.key → stampOf old < stampOf op

section entries
variable (w : ClientWrite)

theorem writeBuilt : cacheOps w.now w.argv = some w.op := by
  rw [cacheOps,dif_pos (by simp [ClientWrite.argv])]
  rfl

theorem opStamp : stampOf w.op = w.now.value := strtollUstime w.now

theorem opKey (free : ZeroFree w.key) : w.op.key = w.key := cstrZeroFree free

theorem opValue (free : ZeroFree w.value) : valueOf w.op = w.value := cstrZeroFree free

theorem opInner (keyFree : ZeroFree w.key) (valueFree : ZeroFree w.value) : w.op.argv.drop 2 = w.argv := by
  have word : cstr textSet = textSet := by decide
  simp [ClientWrite.op,ClientWrite.argv,word,cstrZeroFree keyFree,cstrZeroFree valueFree]

theorem opInj {v w : ClientWrite} (same : v.op = w.op) : v.now = w.now :=
  ustimeTextInj (congrArg (fun op : CacheOps => op.argv.getD 1 []) same)

end entries

theorem setContents (key value : Bytes) (contents : Contents) :
    execWrite [textSet,key,value] contents = Function.update contents key (some (.string value)) := rfl

/-- An issued write of which some part of the network has the given entry. -/
def Entry (issued : List ClientWrite) (x : NodeId) (op : CacheOps) : Prop := ∃ w ∈ issued, w.op = op ∧ w.source = x

theorem entryGrown {issued : List ClientWrite} {x : NodeId} {op : CacheOps} (w : ClientWrite)
    (entry : Entry issued x op) :
    Entry (w :: issued) x op := by
  obtain ⟨v,member,own⟩ := entry
  exact ⟨v,List.mem_cons_of_mem _ member,own⟩

/-- Where a write is on its way to a member: run there, in flight, cached at its source, or overtaken. -/
inductive Reaches (net : Net) (w : ClientWrite) (y : NodeId) : Prop where
  | ran (member : w.op ∈ net.ran y)
  | wire (member : w.op ∈ net.links w.source y)
  | cached (other : y ≠ w.source) (member : w.op ∈ (net.member w.source).cachedOp.entries)
  | overtaken (v : ClientWrite) (member : v ∈ net.issued) (key : v.key = w.key) (newer : w.now.value < v.now.value)

structure Inv (nodes : List NodeId) (hot : Slot) (initial : Contents) (net : Net) : Prop where
  group : ∀ x ∈ nodes, ∀ y, y ∈ (net.member x).relatedIns.entries ↔ y ∈ nodes
  bounded : ∀ x, Bounded (net.member x)
  plain : ∀ w ∈ net.issued, w.source ∈ nodes ∧ keyHashSlot w.key = hot ∧ ZeroFree w.key ∧ ZeroFree w.value
  distinct : ∀ v ∈ net.issued, ∀ w ∈ net.issued, v.now = w.now → v = w
  cached : ∀ x, ∀ op ∈ (net.member x).cachedOp.entries, Entry net.issued x op
  wire : ∀ x y, ∀ op ∈ net.links x y, Entry net.issued x op
  known : ∀ y, ∀ op ∈ net.ran y, ∃ w ∈ net.issued, w.op = op
  ascending : ∀ y, Ascending CacheOps.key stampOf (net.ran y)
  store : ∀ y key, net.store y key =
    (lastOf CacheOps.key (net.ran y) key).elim (initial key) (fun op => some (.string (valueOf op)))
  spread : ∀ w ∈ net.issued, ∀ y ∈ nodes, Reaches net w y

theorem startedInv {nodes : List NodeId} {hot : Slot} {initial : Contents} {net : Net}
    (started : Started nodes initial net) : Inv nodes hot initial net := by
  obtain ⟨_,group,bare,counted,store,links,issued,ran⟩ := started
  refine ⟨group,fun x => ?_,?_,?_,?_,?_,?_,?_,?_,?_⟩
  · simpa [Bounded,Dict.size,bare x] using counted x
  · simp [issued]
  · simp [issued]
  · simp [bare]
  · simp [links _ _]
  · simp [ran]
  · simp [ran,Ascending]
  · simp [ran,store,lastOf]
  · simp [issued]

theorem storeRun {initial contents : Contents} {ran : List CacheOps} {w : ClientWrite} (keyFree : ZeroFree w.key)
    (valueFree : ZeroFree w.value)
    (before : ∀ key, contents key =
      (lastOf CacheOps.key ran key).elim (initial key) (fun op => some (.string (valueOf op)))) (key : Bytes) :
    execWrite w.argv contents key =
      (lastOf CacheOps.key (w.op :: ran) key).elim (initial key) (fun op => some (.string (valueOf op))) := by
  rw [ClientWrite.argv,setContents]
  by_cases same : key = w.key
  · subst same
    rw [Function.update_self]
    have own : lastOf CacheOps.key (w.op :: ran) w.op.key = some w.op := lastOfSame w.op ran
    rw [opKey w keyFree] at own
    rw [own,Option.elim_some,opValue w valueFree]
  · rw [Function.update_of_ne same,lastOfOther ran (by rw [opKey w keyFree]; exact Ne.symm same),before key]

section steps
variable {nodes : List NodeId} {hot : Slot} {initial : Contents} {net next : Net}

theorem writeKept {w : ClientWrite} (inv : Inv nodes hot initial net) (ok : StepOk hot net (.write w))
    (taken : step nodes hot net (.write w) = some next) : Inv nodes hot initial next := by
  obtain ⟨keyFree,valueFree,newest⟩ := ok
  simp only [step] at taken
  split at taken <;> try contradiction
  rename_i client
  obtain ⟨here,inSlot,stamped⟩ := client
  split at taken <;> try contradiction
  rename_i st stored
  cases Option.some.inj taken
  obtain ⟨op,built,rfl⟩ := addedEntry stored
  cases Option.some.inj ((writeBuilt w).symm.trans built)
  have key := opKey w keyFree
  have members : ∀ x, Function.update net.member w.source (added w.op (net.member w.source)) x =
      if x = w.source then added w.op (net.member w.source) else net.member x :=
    fun _ => Function.update_apply _ _ _ _
  have runs : ∀ y, Function.update net.ran w.source (w.op :: net.ran w.source) y =
      if y = w.source then w.op :: net.ran w.source else net.ran y :=
    fun _ => Function.update_apply _ _ _ _
  refine ⟨fun x inside => ?_,fun x => ?_,?_,?_,fun x op member => ?_,fun x y op member => ?_,fun y op member => ?_,
    fun y => ?_,fun y k => ?_,?_⟩
  · change ∀ y, y ∈ (Function.update net.member w.source (added w.op (net.member w.source)) x).relatedIns.entries ↔ _
    rw [members]
    split
    · exact inv.group w.source here
    · exact inv.group x inside
  · change Bounded (Function.update net.member w.source (added w.op (net.member w.source)) x)
    rw [members]
    split
    · exact addedBounded w.op (inv.bounded w.source)
    · exact inv.bounded x
  · intro v member
    rcases List.mem_cons.mp member with rfl | old
    · exact ⟨here,inSlot,keyFree,valueFree⟩
    · exact inv.plain v old
  · intro u left v right same
    rcases List.mem_cons.mp left with rfl | oldLeft <;> rcases List.mem_cons.mp right with rfl | oldRight
    · rfl
    · exact absurd same.symm (stamped v oldRight).1
    · exact absurd same (stamped u oldLeft).1
    · exact inv.distinct u oldLeft v oldRight same
  · change op ∈ (Function.update net.member w.source (added w.op (net.member w.source)) x).cachedOp.entries at member
    rw [members] at member
    split at member
    · rename_i own
      rcases Dict.memReplace.mp member with rfl | ⟨old,_⟩
      · exact ⟨w,List.mem_cons_self,rfl,own.symm⟩
      · exact entryGrown w (own ▸ inv.cached w.source op old)
    · exact entryGrown w (inv.cached x op member)
  · exact entryGrown w (inv.wire x y op member)
  · change op ∈ Function.update net.ran w.source (w.op :: net.ran w.source) y at member
    rw [runs] at member
    split at member
    · rcases List.mem_cons.mp member with rfl | old
      · exact ⟨w,List.mem_cons_self,rfl⟩
      · obtain ⟨v,inside,own⟩ := inv.known w.source op old
        exact ⟨v,List.mem_cons_of_mem _ inside,own⟩
    · obtain ⟨v,inside,own⟩ := inv.known y op member
      exact ⟨v,List.mem_cons_of_mem _ inside,own⟩
  · change Ascending CacheOps.key stampOf (Function.update net.ran w.source (w.op :: net.ran w.source) y)
    rw [runs]
    split
    · refine List.pairwise_cons.mpr ⟨fun old member same => ?_,inv.ascending w.source⟩
      rw [opStamp]
      exact newest old member (same.symm.trans key)
    · exact inv.ascending y
  · change Function.update net.store w.source _ y k = (lastOf CacheOps.key
      (Function.update net.ran w.source _ y) k).elim _ _
    rw [runs,Function.update_apply]
    split
    · exact storeRun keyFree valueFree (inv.store w.source) k
    · exact inv.store y k
  · intro v member y inside
    rcases List.mem_cons.mp member with rfl | old
    · by_cases own : y = v.source
      · refine .ran ?_
        change v.op ∈ Function.update net.ran v.source (v.op :: net.ran v.source) y
        rw [runs,if_pos own]
        exact List.mem_cons_self
      · refine .cached own ?_
        change v.op ∈ (Function.update net.member v.source (added v.op (net.member v.source)) v.source).cachedOp.entries
        rw [members,if_pos rfl]
        exact Dict.memReplace.mpr (.inl rfl)
    · cases inv.spread v old y inside with
      | ran run =>
        refine .ran ?_
        change v.op ∈ Function.update net.ran w.source (w.op :: net.ran w.source) y
        rw [runs]
        split
        · rename_i own
          exact List.mem_cons_of_mem _ (own ▸ run)
        · exact run
      | wire queued => exact .wire queued
      | overtaken u issued same newer => exact .overtaken u (List.mem_cons_of_mem _ issued) same newer
      | cached other waiting =>
        by_cases own : v.source = w.source
        · by_cases same : v.key = w.key
          · exact .overtaken w List.mem_cons_self same.symm ((stamped v old).2 own)
          · refine .cached other ?_
            change v.op ∈ (Function.update net.member w.source
              (added w.op (net.member w.source)) v.source).cachedOp.entries
            rw [members,if_pos own]
            refine Dict.memReplace.mpr (.inr ⟨own ▸ waiting,?_⟩)
            rw [key,opKey v (inv.plain v old).2.2.1]
            exact same
        · refine .cached other ?_
          change v.op ∈ (Function.update net.member w.source
            (added w.op (net.member w.source)) v.source).cachedOp.entries
          rw [members,if_neg own]
          exact waiting

theorem flushKept {x : NodeId} {order : IterOrder CacheOps} (inv : Inv nodes hot initial net)
    (taken : step nodes hot net (.flush x order) = some next) : Inv nodes hot initial next := by
  simp only [step] at taken
  split at taken <;> try contradiction
  rename_i here
  cases Option.some.inj taken
  have related := broadcastRelated order x (net.member x)
  have cleared := broadcastAll order x (net.member x) (inv.bounded x)
  have members : ∀ y, Function.update net.member x (broadcastCommandInHotGroup order x (net.member x)).1 y =
      if y = x then (broadcastCommandInHotGroup order x (net.member x)).1 else net.member y :=
    fun _ => Function.update_apply _ _ _ _
  refine ⟨fun y inside => ?_,fun y => ?_,inv.plain,inv.distinct,fun y op member => ?_,fun y z op member => ?_,
    inv.known,inv.ascending,inv.store,fun w issued y inside => ?_⟩
  · dsimp only
    rw [members]
    split
    · rw [related]
      exact inv.group x here
    · exact inv.group y inside
  · dsimp only
    rw [members]
    split
    · exact broadcastBounded order x _ (inv.bounded x)
    · exact inv.bounded y
  · dsimp only at member
    rw [members] at member
    split at member
    · rw [cleared] at member
      contradiction
    · exact inv.cached y op member
  · dsimp only at member
    rcases memPost.mp member with queued | ⟨rfl,sent⟩
    · exact inv.wire y z op queued
    · exact inv.cached y op (broadcastSends order y (net.member y) (memSentTo.mp sent)).1
  · cases inv.spread w issued y inside with
    | ran run => exact .ran run
    | wire queued =>
      refine .wire ?_
      dsimp only
      exact memPost.mpr (.inl queued)
    | overtaken u member same newer => exact .overtaken u member same newer
    | cached other waiting =>
      by_cases own : w.source = x
      · subst own
        refine .wire ?_
        dsimp only
        refine memPost.mpr (.inr ⟨rfl,?_⟩)
        rw [broadcastSentTo order w.source (net.member w.source) (inv.bounded w.source),
          if_pos ⟨(inv.group w.source here y).mpr inside,other⟩]
        exact (order.perm _).mem_iff.mpr waiting
      · refine .cached other ?_
        dsimp only
        rw [members,if_neg own]
        exact waiting

end steps

/-- The receiver compares the stamp with what it has cached under the key itself. -/
theorem opBranch (cachedOp : Slot → OpDict) {w : ClientWrite} (keyFree : ZeroFree w.key)
    (valueFree : ZeroFree w.value) :
    magicBranch cachedOp w.op.argv =
      match (cachedOp (keyHashSlot w.key)).find w.key with
      | some op => if stampOf op > w.now.value then .stale else .inner w.argv
      | none => .inner w.argv := by
  have word : cstr textSet = textSet := by decide
  have shape : w.op.argv = [magicWord,w.now.text,textSet,w.key,w.value] := by
    simp [ClientWrite.op,ClientWrite.argv,word,cstrZeroFree keyFree,cstrZeroFree valueFree]
  have magic : strncmpEqual magicWord magicWord 6 = true := rfl
  simp only [magicBranch,shape,magic,if_true,List.getElem?_cons_succ,List.getElem?_cons_zero,strtollUstime]
  rfl

section deliver
variable {nodes : List NodeId} {hot : Slot} {initial : Contents} {net next : Net}

/-- A delivered write is executed, or dropped for a newer one of its key. -/
theorem deliverWay {x y : NodeId} {w : ClientWrite} {rest : List CacheOps} (inv : Inv nodes hot initial net)
    (issued : w ∈ net.issued) (queue : net.links x y = w.op :: rest)
    (taken : step nodes hot net (.deliver x y) = some next) :
    (dropped hot net y w.op = false ∧ next = { net with
        store := Function.update net.store y (execWrite w.argv (net.store y)),
        links := withdraw net.links x y rest,
        ran := Function.update net.ran y (w.op :: net.ran y) }) ∨
    (next = { net with links := withdraw net.links x y rest } ∧
      ∃ v ∈ net.issued, v.key = w.key ∧ w.now.value < v.now.value) := by
  obtain ⟨_,inSlot,keyFree,valueFree⟩ := inv.plain w issued
  have branch := opBranch (cachedAt hot (net.member y)) keyFree valueFree
  rw [cachedAt,if_pos inSlot] at branch
  simp only [step,queue,branch] at taken
  cases found : (net.member y).cachedOp.find w.key with
  | none =>
    simp only [found] at branch taken
    left
    exact ⟨by simp [dropped,branch],(Option.some.inj taken).symm⟩
  | some op =>
    simp only [found] at branch taken
    by_cases newer : stampOf op > w.now.value
    · rw [if_pos newer] at branch taken
      right
      refine ⟨(Option.some.inj taken).symm,?_⟩
      obtain ⟨inside,key⟩ := Dict.findMem found
      obtain ⟨v,member,rfl,_⟩ := inv.cached y op inside
      rw [opStamp] at newer
      rw [opKey v (inv.plain v member).2.2.1] at key
      exact ⟨v,member,key,by exact_mod_cast newer⟩
    · rw [if_neg newer] at branch taken
      left
      exact ⟨by simp [dropped,branch],(Option.some.inj taken).symm⟩

theorem deliverKept {x y : NodeId} (inv : Inv nodes hot initial net) (ok : StepOk hot net (.deliver x y))
    (taken : step nodes hot net (.deliver x y) = some next) : Inv nodes hot initial next := by
  cases queue : net.links x y with
  | nil => simp [step,queue] at taken
  | cons op rest =>
    obtain ⟨w,issued,rfl,own⟩ := inv.wire x y op (by rw [queue]; exact List.mem_cons_self)
    obtain ⟨_,_,keyFree,valueFree⟩ := inv.plain w issued
    have wire : ∀ a b o, o ∈ withdraw net.links x y rest a b → Entry net.issued a o :=
      fun a b o member => inv.wire a b o (memWithdraw queue member)
    -- What was queued behind the delivered write is still queued.
    have queued : ∀ v ∈ net.issued, ∀ z, v.op ∈ net.links v.source z → v ≠ w ∨ z ≠ y →
        v.op ∈ withdraw net.links x y rest v.source z := by
      intro v member z inside other
      by_cases here : v.source = x ∧ z = y
      · obtain ⟨rfl,rfl⟩ := here
        rw [withdrawSame]
        rw [queue] at inside
        rcases List.mem_cons.mp inside with same | later
        · exact absurd (inv.distinct v member w issued (opInj same)) (other.resolve_right (fun h => h rfl))
        · exact later
      · rwa [withdrawOther net.links rest here]
    rcases deliverWay inv issued queue taken with ⟨taken_,rfl⟩ | ⟨rfl,v,newer⟩
    · have runs : ∀ z, Function.update net.ran y (w.op :: net.ran y) z =
          if z = y then w.op :: net.ran y else net.ran z := fun _ => Function.update_apply _ _ _ _
      refine ⟨inv.group,inv.bounded,inv.plain,inv.distinct,inv.cached,wire,fun z o member => ?_,fun z => ?_,
        fun z k => ?_,fun v member z inside => ?_⟩
      · dsimp only at member
        rw [runs] at member
        split at member
        · rcases List.mem_cons.mp member with rfl | old
          · exact ⟨w,issued,rfl⟩
          · exact inv.known y o old
        · exact inv.known z o member
      · dsimp only
        rw [runs]
        split
        · refine List.pairwise_cons.mpr ⟨fun old member same => ?_,inv.ascending y⟩
          exact ok w.op rest queue taken_ old member same.symm
        · exact inv.ascending z
      · dsimp only
        rw [runs,Function.update_apply]
        split
        · exact storeRun keyFree valueFree (inv.store y) k
        · exact inv.store z k
      · cases inv.spread v member z inside with
        | ran run =>
          refine .ran ?_
          dsimp only
          rw [runs]
          split
          · rename_i here
            exact List.mem_cons_of_mem _ (here ▸ run)
          · exact run
        | cached other waiting => exact .cached other waiting
        | overtaken u known same newer => exact .overtaken u known same newer
        | wire inside =>
          by_cases same : v = w ∧ z = y
          · obtain ⟨rfl,rfl⟩ := same
            refine .ran ?_
            dsimp only
            rw [runs,if_pos rfl]
            exact List.mem_cons_self
          · exact .wire (queued v member z inside (by tauto))
    · refine ⟨inv.group,inv.bounded,inv.plain,inv.distinct,inv.cached,wire,inv.known,inv.ascending,inv.store,
        fun u member z inside => ?_⟩
      cases inv.spread u member z inside with
      | ran run => exact .ran run
      | cached other waiting => exact .cached other waiting
      | overtaken t known same later => exact .overtaken t known same later
      | wire inside =>
        by_cases same : u = w
        · subst same
          exact .overtaken v newer.1 newer.2.1 newer.2.2
        · exact .wire (queued u member z inside (.inl same))

end deliver

theorem runInv {nodes : List NodeId} {hot : Slot} {initial : Contents} {start net : Net} {past : List Event}
    (started : Started nodes initial start) (run : Reach (Guarded (StepOk hot)
      (Takes (step nodes hot))) start past net) :
    Inv nodes hot initial net := by
  refine reachInvariant (startedInv started) ?_ run
  rintro net event next inv ⟨ok,taken⟩
  cases event with
  | write w => exact writeKept inv ok taken
  | flush x order => exact flushKept inv taken
  | deliver x y => exact deliverKept inv ok taken

/-- While no member executes a write after a newer one of its key, and no argument is cut, all
members hold the newest write of each key once everything is delivered. -/
theorem hotConvergence {nodes : List NodeId} {hot : Slot} {initial : Contents} {start net : Net} {past : List Event}
    (started : Started nodes initial start)
    (run : Reach (Guarded (StepOk hot) (Takes (step nodes hot))) start past net) (settled : Settled nodes net) :
    ∀ y ∈ nodes, Newest initial net.issued (net.store y) := by
  have inv := runInv started run
  intro y inside
  refine ⟨fun w issued newest => ?_,fun key unwritten => ?_⟩
  · obtain ⟨here,_,keyFree,valueFree⟩ := inv.plain w issued
    have ran : w.op ∈ net.ran y := by
      cases inv.spread w issued y inside with
      | ran run => exact run
      | wire queued => simp [settled.links w.source here y inside] at queued
      | cached _ waiting => simp [settled.bare w.source here] at waiting
      | overtaken v member same newer => exact absurd (newest v member same) (by omega)
    have older : ∀ op ∈ net.ran y, op.key = w.op.key → stampOf op ≤ stampOf w.op := by
      intro op member same
      obtain ⟨v,known,rfl⟩ := inv.known y op member
      rw [opKey v (inv.plain v known).2.2.1,opKey w keyFree] at same
      rw [opStamp,opStamp]
      exact_mod_cast newest v known same
    have apart : ∀ op ∈ net.ran y, op.key = w.op.key → stampOf op = stampOf w.op → op = w.op := by
      intro op member _ same
      obtain ⟨v,known,rfl⟩ := inv.known y op member
      rw [opStamp,opStamp] at same
      have clock : v.now = w.now := by
        cases v' : v.now
        cases w' : w.now
        rw [v',w'] at same
        simpa using same
      rw [inv.distinct v known w issued clock]
    have last := newestLast (inv.ascending y) ran older apart
    rw [inv.store y w.key,← opKey w keyFree,last,Option.elim_some,opValue w valueFree]
  · have absent : lastOf CacheOps.key (net.ran y) key = none := by
      refine lastOfNone.mpr (fun op member same => ?_)
      obtain ⟨v,known,rfl⟩ := inv.known y op member
      exact unwritten v known ((opKey v (inv.plain v known).2.2.1).symm.trans same)
    rw [inv.store y key,absent,Option.elim_none]

def checkStep (net : Net) : Event → Bool
  | .write w => decide (ZeroFree w.key) && decide (ZeroFree w.value) &&
      (net.ran w.source).all (fun op => decide (op.key = w.key → stampOf op < w.now.value))
  | .flush _ _ => true
  | .deliver x y =>
    match net.links x y with
    | [] => true
    | op :: _ => (net.ran y).all (fun old => decide (old.key = op.key → stampOf old < stampOf op))

theorem checkStepSound (hot : Slot) (net : Net) (event : Event) (passed : checkStep net event = true) :
    StepOk hot net event := by
  cases event with
  | write w =>
    simp only [checkStep,Bool.and_eq_true,decide_eq_true_eq,List.all_eq_true] at passed
    exact ⟨passed.1.1,passed.1.2,passed.2⟩
  | flush x order => trivial
  | deliver x y =>
    intro op rest queue _ old member
    simp only [checkStep,queue,List.all_eq_true,decide_eq_true_eq] at passed
    exact passed old member

def pairNodes : List NodeId := [1,2]
def pairState : SlotState :=
  { SlotState.zeroed with isCopied := true, relatedIns := (Dict.empty.replace 1).replace 2 }
def nothingStored : Contents := fun _ => none
def pairNet : Net := ⟨fun _ => pairState,fun _ => nothingStored,FifoLinks.empty,[],fun _ => []⟩
def slotOfK : Slot := keyHashSlot letterK

theorem pairStarted : Started pairNodes nothingStored pairNet := by
  refine ⟨fun _ _ => rfl,fun x _ y => ?_,fun _ => rfl,fun _ => le_refl 0,fun _ => rfl,fun _ _ => rfl,rfl,fun _ => rfl⟩
  have shape : (pairNet.member x).relatedIns.entries = [1,2] := rfl
  rw [shape,pairNodes]

def early : ClientWrite := ⟨1,clock 0,letterK,letterA⟩
def late : ClientWrite := ⟨2,clock 1,letterK,letterB⟩

def inTurn : List Event :=
  [.write early,.flush 1 .asStored,.deliver 1 2,.write late,.flush 2 .asStored,.deliver 2 1]

def settledWith (net : Net) (issued : List ClientWrite) : Bool :=
  decide (∀ x ∈ pairNodes, ∀ y ∈ pairNodes, net.links x y = []) &&
    decide (∀ x ∈ pairNodes, (net.member x).cachedOp.entries = []) && decide (net.issued = issued)

theorem hotConvergenceShown : ∃ past net,
    Reach (Guarded (StepOk slotOfK) (Takes (step pairNodes slotOfK))) pairNet past net ∧
    ∀ y ∈ pairNodes, net.store y letterK = some (.string letterB) := by
  let checked := fun net event => if checkStep net event then step pairNodes slotOfK net event else none
  obtain ⟨net,done⟩ : ∃ net, replay checked pairNet inTurn = some net := Option.isSome_iff_exists.mp (by decide)
  have seen : (replay checked pairNet inTurn).all (fun net => settledWith net [late,early]) = true := by decide
  simp only [done,Option.all_some,settledWith,Bool.and_eq_true,decide_eq_true_eq] at seen
  obtain ⟨⟨links,bare⟩,issued⟩ := seen
  have run := replayGuarded (checkStepSound slotOfK) done
  refine ⟨_,net,run,fun y inside => ?_⟩
  refine (hotConvergence pairStarted run ⟨links,bare⟩ y inside).written late ?_ ?_ <;> rw [issued] <;> decide

def overtaking : List Event :=
  [.write early,.write late,.flush 2 .asStored,.flush 1 .asStored,.deliver 2 1,.deliver 1 2]

/-- The second member has sent its newer write, so it no longer remembers it when the older one comes. -/
theorem olderWins : ∃ net, replay (step pairNodes slotOfK) pairNet overtaking = some net ∧
    Settled pairNodes net ∧ ¬ ∀ y ∈ pairNodes, Newest nothingStored net.issued (net.store y) := by
  obtain ⟨net,done⟩ : ∃ net, replay (step pairNodes slotOfK) pairNet overtaking = some net :=
    Option.isSome_iff_exists.mp (by decide)
  have seen : (replay (step pairNodes slotOfK) pairNet overtaking).all (fun net => settledWith net [late,early] &&
      decide (net.store 2 letterK = some (.string letterA))) = true := by decide
  simp only [done,Option.all_some,settledWith,Bool.and_eq_true,decide_eq_true_eq] at seen
  obtain ⟨⟨⟨links,bare⟩,issued⟩,held⟩ := seen
  refine ⟨net,done,⟨links,bare⟩,fun all => ?_⟩
  have newest := (all 2 (by decide)).written late (by rw [issued]; decide) (by rw [issued]; decide)
  have clash : some (Value.string letterB) = some (.string letterA) := newest.symm.trans held
  exact absurd clash (by decide)

end HpuCache.HotConvergence
