import HpuCache.CommandCache
import HpuCache.SlotIndex

/-! Moving a slot with the manager: pages of its keys are listed at a growing offset
and handed to MIGRATE, which deletes at the source what the target acknowledges. -/
namespace HpuCache.SlotMove
open ByteText KeySlot KeyedDict CommandCache SlotIndex

variable {Value : Type}

structure Ends (Value : Type) where
  source : Db Value
  target : Store Value

/-- What becomes of the RESTORE of one key. -/
inductive Fate where
  | answered
  | refused
  -- The connection fails before its reply is read; the target may have run it.
  | lost (restored : Bool)
  deriving DecidableEq, Repr

/-- One MIGRATE request: whether the target is reached, the keys that a first attempt without
any reply restored, the fates of the last attempt, and whether the manager gets the reply. -/
structure Request where
  connected : Bool
  retried : Option (Bytes → Bool)
  fate : Bytes → Fate
  replied : Bool

inductive MigrateReply where
  | ok
  | nokey
  | error (busy : Bool)
  deriving DecidableEq, Repr

/-- RESTORE at the target; `none` is the BUSYKEY error. -/
def restore (replace : Bool) (e : Bytes × Value) (target : Store Value) : Option (Store Value) :=
  if target.has e.1 && !replace then none else some (target.replace e)

def restoreSilently (replace restored : Bool) (e : Bytes × Value) (target : Store Value) : Store Value :=
  if restored then (restore replace e target).getD target else target

structure Progress (Value : Type) where
  ends : Ends Value
  -- The first error of the target, and whether it is a BUSYKEY.
  error : Option Bool
  socketError : Bool

def readReply (fate : Bytes → Fate) (replace copy : Bool) (p : Progress Value) (e : Bytes × Value) :
    Progress Value :=
  if p.socketError then
    let restored := fate e.1 = .answered ∨ fate e.1 = .lost true
    { p with ends := { p.ends with target := restoreSilently replace restored e p.ends.target } }
  else
    match fate e.1 with
    | .answered =>
      match restore replace e p.ends.target with
      | none => { p with error := p.error <|> some true }
      | some target =>
        { p with ends := ⟨if copy then p.ends.source else p.ends.source.dbDelete e.1,target⟩ }
    | .refused => { p with error := p.error <|> some false }
    | .lost restored =>
      { p with
        ends := { p.ends with target := restoreSilently replace restored e p.ends.target },
        socketError := true }

/-- The keys of an attempt whose connection failed before the first reply. -/
def firstAttempt (replace : Bool) (retried : Option (Bytes → Bool)) (present : List (Bytes × Value))
    (ends : Ends Value) : Ends Value :=
  match retried with
  | none => ends
  | some restored =>
    { ends with
      target := present.foldl (fun target e => restoreSilently replace (restored e.1) e target) ends.target }

def migrateCommand (req : Request) (replace copy : Bool) (keys : List Bytes) (ends : Ends Value) :
    Ends Value × MigrateReply :=
  let present := keys.filterMap ends.source.store.find
  if present.isEmpty then (ends,.nokey)
  else if !req.connected then (ends,.error false)
  else
    let last := present.foldl (readReply req.fate replace copy)
      ⟨firstAttempt replace req.retried present ends,none,false⟩
    match last.error with
    | some busy => (last.ends,.error busy)
    | none => (last.ends,if last.socketError then .error false else .ok)

def clusterManagerMigrateKeysInReply (req : Request) (replace copy : Bool) (keys : List Bytes)
    (ends : Ends Value) : Ends Value × Option MigrateReply :=
  let r := migrateCommand req replace copy keys ends
  (r.1,if req.replied then some r.2 else none)

inductive Listing where
  | null
  | error
  | keys
  deriving DecidableEq, Repr

/-- What one round of the manager meets. -/
structure Round where
  listing : Listing
  first : Request
  -- The source names an owner of the slot, or fails to answer.
  served : Bool
  -- DEBUG DIGEST-VALUE is answered by both ends.
  digests : Bool
  second : Request

structure Options (Value : Type) where
  doReplace : Bool
  digest : Value → Bytes

def hashZero : Bytes := List.replicate 40 48

def digestValue (o : Options Value) (store : Store Value) (key : Bytes) : Bytes :=
  match store.find key with
  | none => hashZero
  | some e => o.digest e.2

def clusterManagerCompareKeysValues (o : Options Value) (keys : List Bytes) (ends : Ends Value) : List Bytes :=
  keys.filter (fun key =>
    let hash1 := digestValue o ends.source.store key
    let hash2 := digestValue o ends.target key
    hash1 ≠ hashZero && hash2 ≠ hashZero && hash1 ≠ hash2)

structure PageResult (Value : Type) where
  ends : Ends Value
  success : Bool
  -- A connection that has seen an error answers nothing more.
  link : Bool

/-- The second request of a page, after its first was answered by an error. -/
def retryPage (o : Options Value) (copy busy : Bool) (round : Round) (keys : List Bytes) (ends : Ends Value) :
    PageResult Value :=
  if busy && !o.doReplace && (!round.digests || !(clusterManagerCompareKeysValues o keys ends).isEmpty) then
    ⟨ends,false,true⟩
  else
    let r := clusterManagerMigrateKeysInReply round.second busy copy keys ends
    match r.2 with
    | none => ⟨r.1,false,false⟩
    | some (.error _) => ⟨r.1,false,true⟩
    | some _ => ⟨r.1,true,true⟩

/-- A page without a reply leaves the success flag as it was. -/
def migratePage (o : Options Value) (copy : Bool) (round : Round) (keys : List Bytes) (ends : Ends Value) :
    PageResult Value :=
  let r := clusterManagerMigrateKeysInReply round.first false copy keys ends
  match r.2 with
  | none => ⟨r.1,true,false⟩
  | some (.error busy) =>
    if busy || !round.served then retryPage o copy busy round keys r.1 else ⟨r.1,false,true⟩
  | some _ => ⟨r.1,true,true⟩

/-- The loop over the pages; `none` when it needs more rounds than are given. -/
def clusterManagerMigrateKeysInSlotHelp (o : Options Value) (slot : Slot) (pipeline : Nat) (copy : Bool) :
    List Round → Nat → Bool → Ends Value → Option (Ends Value × Bool)
  | [], _, _, _ => none
  | round :: rest, offset, link, ends =>
    if !link || decide (round.listing ≠ .keys) then some (ends,false)
    else
      let keys := getkeysinslot slot pipeline offset ends.source
      if keys.isEmpty then some (ends,true)
      else
        let r := migratePage o copy round keys ends
        if r.success then
          clusterManagerMigrateKeysInSlotHelp o slot pipeline copy rest (offset + pipeline) r.link r.ends
        else some (r.ends,false)

def clusterManagerMigrateKeysInSlot (o : Options Value) (slot : Slot) (pipeline : Nat) (rounds : List Round)
    (ends : Ends Value) : Option (Ends Value × Bool) :=
  clusterManagerMigrateKeysInSlotHelp o slot pipeline false rounds 0 true ends

/-- How the CLUSTER SETSLOT commands of a move are answered; the masters in the order they are told. -/
structure Setslot where
  importing : Bool
  migrating : Bool
  masters : List (NodeId × Bool)

/-- The masters that are told the new owner: up to the first that does not answer OK. -/
def setslotNode : List (NodeId × Bool) → List NodeId × Bool
  | [] => ([],true)
  | (node,ok) :: rest =>
    if ok then
      let r := setslotNode rest
      (node :: r.1,r.2)
    else ([node],false)

structure MoveResult (Value : Type) where
  ends : Ends Value
  told : List NodeId
  success : Bool

def clusterManagerMoveSlot (o : Options Value) (optionCold : Bool) (setslot : Setslot) (slot : Slot)
    (pipeline : Nat) (rounds : List Round) (ends : Ends Value) : Option (MoveResult Value) :=
  if !optionCold && !(setslot.importing && setslot.migrating) then some ⟨ends,[],false⟩
  else
    match clusterManagerMigrateKeysInSlot o slot pipeline rounds ends with
    | none => none
    | some (ends,false) => some ⟨ends,[],false⟩
    | some (ends,true) =>
      if optionCold then some ⟨ends,[],true⟩
      else
        let r := setslotNode setslot.masters
        some ⟨ends,r.1,r.2⟩

/-- What requests for some keys do: what leaves the source is at the target, and what only the
target had stays there. -/
structure Moves (keys : List Bytes) (a b : Ends Value) : Prop where
  source : ∃ keep : Bytes → Bool, (∀ key, key ∉ keys → keep key = true) ∧
    b.source.store.entries = a.source.store.entries.filter (fun e => keep e.1)
  moved : ∀ e ∈ a.source.store.entries, e ∉ b.source.store.entries → e ∈ b.target.entries
  still : ∀ e ∈ a.target.entries, (∀ f ∈ a.source.store.entries, f.1 ≠ e.1) → e ∈ b.target.entries

section moves
variable {keys : List Bytes} {a b c : Ends Value}

theorem Moves.refl (keys : List Bytes) (a : Ends Value) : Moves keys a a :=
  ⟨⟨fun _ => true,fun _ _ => rfl,by simp⟩,fun _ member gone => absurd member gone,fun _ member _ => member⟩

theorem Moves.kept (moves : Moves keys a b) {e : Bytes × Value} (member : e ∈ b.source.store.entries) :
    e ∈ a.source.store.entries := by
  obtain ⟨keep,_,same⟩ := moves.source
  rw [same] at member
  exact (List.mem_filter.mp member).1

theorem Moves.trans (first : Moves keys a b) (second : Moves keys b c) : Moves keys a c := by
  refine ⟨?_,?_,?_⟩
  · obtain ⟨keep,all,same⟩ := first.source
    obtain ⟨keep',all',same'⟩ := second.source
    refine ⟨fun key => keep key && keep' key,fun key out => by simp [all key out,all' key out],?_⟩
    rw [same',same,List.filter_filter]
    exact List.filter_congr (fun e _ => Bool.and_comm _ _)
  · intro e member gone
    by_cases still : e ∈ b.source.store.entries
    · exact second.moved e still gone
    · refine second.still e (first.moved e member still) ?_
      intro f inside same
      have own := Dict.entryUnique a.source.store (first.kept inside) member same
      exact still (own ▸ inside)
  · intro e member absent
    refine second.still e (first.still e member absent) ?_
    exact fun f inside => absent f (first.kept inside)

theorem Moves.widen {wider : List Bytes} (moves : Moves keys a b) (sub : ∀ key ∈ keys, key ∈ wider) :
    Moves wider a b := by
  obtain ⟨keep,all,same⟩ := moves.source
  exact ⟨⟨keep,fun key out => all key (fun inside => out (sub key inside)),same⟩,moves.moved,moves.still⟩

theorem Moves.keysOf (moves : Moves keys a b) (slot : Slot) :
    ∃ keep : Bytes → Bool, (∀ key, key ∉ keys → keep key = true) ∧
      SlotIndex.keysOf slot b.source = (SlotIndex.keysOf slot a.source).filter keep := by
  obtain ⟨keep,all,same⟩ := moves.source
  refine ⟨keep,all,?_⟩
  simp only [SlotIndex.keysOf,same,List.filter_map,List.filter_filter]
  congr 1
  exact List.filter_congr (fun e _ => Bool.and_comm _ _)

end moves

section requests
variable {replace : Bool} {fate : Bytes → Fate}

theorem restoreEntries {e : Bytes × Value} {target target' : Store Value}
    (ok : restore replace e target = some target') : target' = target.replace e := by
  unfold restore at ok
  split at ok <;> try contradiction
  exact (Option.some.inj ok).symm

theorem silentKept {restored : Bool} {e f : Bytes × Value} {target : Store Value} (member : f ∈ target.entries)
    (other : f.1 ≠ e.1) : f ∈ (restoreSilently replace restored e target).entries := by
  unfold restoreSilently
  split
  · cases ok : restore replace e target with
    | none => exact member
    | some target' =>
      rw [restoreEntries ok]
      exact Dict.memReplace.mpr (.inr ⟨member,other⟩)
  · exact member

theorem targetMoves {keys : List Bytes} {ends : Ends Value} {target : Store Value}
    (still : ∀ e ∈ ends.target.entries, (∀ f ∈ ends.source.store.entries, f.1 ≠ e.1) → e ∈ target.entries) :
    Moves keys ends { ends with target := target } :=
  ⟨⟨fun _ => true,fun _ _ => rfl,by simp⟩,fun _ member gone => absurd member gone,still⟩

theorem silentMoves {keys : List Bytes} {ends : Ends Value} {restored : Bool} {e : Bytes × Value}
    (inside : e ∈ ends.source.store.entries) :
    Moves keys ends { ends with target := restoreSilently replace restored e ends.target } :=
  targetMoves (fun _ member absent => silentKept member (absent e inside).symm)

theorem readMoves (fate : Bytes → Fate) (replace : Bool) {p : Progress Value} {e : Bytes × Value}
    (inside : e ∈ p.ends.source.store.entries) :
    Moves [e.1] p.ends (readReply fate replace false p e).ends := by
  unfold readReply
  split
  · exact silentMoves inside
  · split
    · split
      · exact .refl _ _
      · rename_i target ok
        refine ⟨⟨fun key => key ≠ e.1,fun key out => by simpa using out,rfl⟩,?_,?_⟩
        · intro f member gone
          have same : f.1 = e.1 := by
            by_contra other
            exact gone (Dict.memDelete.mpr ⟨member,other⟩)
          rw [Dict.entryUnique _ member inside same,restoreEntries ok]
          exact Dict.memReplace.mpr (.inl rfl)
        · intro f member absent
          rw [restoreEntries ok]
          exact Dict.memReplace.mpr (.inr ⟨member,(absent e inside).symm⟩)
    · exact .refl _ _
    · exact silentMoves inside

theorem readOthers {p : Progress Value} {e f : Bytes × Value} (inside : f ∈ p.ends.source.store.entries)
    (other : f.1 ≠ e.1) : f ∈ (readReply fate replace false p e).ends.source.store.entries := by
  unfold readReply
  repeat' split
  all_goals first | exact inside | exact Dict.memDelete.mpr ⟨inside,other⟩

theorem foldMoves (fate : Bytes → Fate) (replace : Bool) {present : List (Bytes × Value)} {p : Progress Value}
    (distinct : (present.map Prod.fst).Nodup) (inside : ∀ e ∈ present, e ∈ p.ends.source.store.entries) :
    Moves (present.map Prod.fst) p.ends (present.foldl (readReply fate replace false) p).ends := by
  induction present generalizing p with
  | nil => exact .refl _ _
  | cons e rest ih =>
    obtain ⟨fresh,distinct⟩ := List.nodup_cons.mp distinct
    have first := readMoves fate replace (inside e List.mem_cons_self)
    have later := ih (p := readReply fate replace false p e) distinct (fun f member =>
      readOthers (inside f (List.mem_cons_of_mem _ member))
        (fun same => fresh (same ▸ List.mem_map_of_mem member)))
    exact (first.widen (by simp)).trans (later.widen (by simp_all))

theorem readOk {p : Progress Value} {e : Bytes × Value} (copy : Bool)
    (error : (readReply fate replace copy p e).error = none)
    (socket : (readReply fate replace copy p e).socketError = false) :
    p.error = none ∧ p.socketError = false ∧ ∃ target, (readReply fate replace copy p e).ends =
      ⟨if copy then p.ends.source else p.ends.source.dbDelete e.1,target⟩ := by
  unfold readReply at error socket ⊢
  split
  · rename_i broken
    rw [if_pos broken] at socket
    simp only [broken] at socket
    contradiction
  · rename_i whole
    rw [if_neg whole] at error socket
    have off : p.socketError = false := by simpa using whole
    split
    · rename_i answered
      simp only [answered] at error socket
      split
      · rename_i busy
        simp [busy] at error
      · rename_i target ok
        simp only [ok] at error
        exact ⟨error,off,target,rfl⟩
    · rename_i refused
      simp [refused] at error
    · rename_i lost
      simp [lost] at socket

theorem foldKept {present : List (Bytes × Value)} {p : Progress Value} {f : Bytes × Value}
    (member : f ∈ (present.foldl (readReply fate replace false) p).ends.source.store.entries) :
    f ∈ p.ends.source.store.entries := by
  induction present generalizing p with
  | nil => exact member
  | cons e rest ih =>
    have before := ih (p := readReply fate replace false p e) member
    unfold readReply at before
    repeat' split at before
    all_goals first | exact before | exact (Dict.memDelete.mp before).1

theorem foldOk {present : List (Bytes × Value)} {p : Progress Value}
    (error : (present.foldl (readReply fate replace false) p).error = none)
    (socket : (present.foldl (readReply fate replace false) p).socketError = false) :
    (p.error = none ∧ p.socketError = false) ∧ ∀ e ∈ present,
      ∀ f ∈ (present.foldl (readReply fate replace false) p).ends.source.store.entries, f.1 ≠ e.1 := by
  induction present generalizing p with
  | nil => exact ⟨⟨error,socket⟩,by simp⟩
  | cons e rest ih =>
    obtain ⟨⟨error',socket'⟩,gone⟩ := ih (p := readReply fate replace false p e) error socket
    obtain ⟨before,whole,target,shape⟩ := readOk false error' socket'
    refine ⟨⟨before,whole⟩,?_⟩
    intro e' member f inside
    rcases List.mem_cons.mp member with rfl | later
    · have still := foldKept (p := readReply fate replace false p e') inside
      rw [shape] at still
      exact (Dict.memDelete.mp still).2
    · exact gone e' later f inside

end requests

section pages
variable {o : Options Value} {req : Request} {replace : Bool} {keys : List Bytes} {ends : Ends Value}

theorem presentKeys (store : Store Value) (keys : List Bytes) :
    (keys.filterMap store.find).map Prod.fst = keys.filter store.has := by
  induction keys with
  | nil => rfl
  | cons key rest ih =>
    cases found : store.find key with
    | none =>
      have absent : store.has key = false := by
        simpa [Dict.has] using Dict.findNone.mp found
      simp [found,absent,ih]
    | some e =>
      obtain ⟨member,same⟩ := Dict.findMem found
      have has : store.has key = true := (Dict.hasIff store key).mpr ⟨e,member,same⟩
      simp [found,has,ih,same]

theorem presentInside {store : Store Value} {e : Bytes × Value} (member : e ∈ keys.filterMap store.find) :
    e ∈ store.entries := by
  obtain ⟨key,_,found⟩ := List.mem_filterMap.mp member
  exact (Dict.findMem found).1

theorem firstMoves (keys : List Bytes) (replace : Bool) (retried : Option (Bytes → Bool))
    {present : List (Bytes × Value)} {ends : Ends Value} (inside : ∀ e ∈ present, e ∈ ends.source.store.entries) :
    Moves keys ends (firstAttempt replace retried present ends) := by
  cases retried with
  | none => exact .refl _ _
  | some restored =>
    refine targetMoves ?_
    intro e member absent
    generalize ends.target = target at member
    induction present generalizing target with
    | nil => exact member
    | cons f rest ih =>
      exact ih (fun g later => inside g (List.mem_cons_of_mem _ later)) _
        (silentKept member (absent f (inside f List.mem_cons_self)).symm)

theorem firstSource (replace : Bool) (retried : Option (Bytes → Bool)) (present : List (Bytes × Value))
    (ends : Ends Value) : (firstAttempt replace retried present ends).source = ends.source := by
  unfold firstAttempt
  split <;> rfl

theorem migrateMoves (req : Request) (replace : Bool) (ends : Ends Value) (distinct : keys.Nodup) :
    Moves keys ends (migrateCommand req replace false keys ends).1 := by
  unfold migrateCommand
  dsimp only
  split
  · exact .refl _ _
  split
  · exact .refl _ _
  have here : ∀ e ∈ keys.filterMap ends.source.store.find, e ∈ ends.source.store.entries := fun _ => presentInside
  have first := firstMoves keys replace req.retried here
  have inside : ∀ e ∈ keys.filterMap ends.source.store.find,
      e ∈ (firstAttempt replace req.retried (keys.filterMap ends.source.store.find) ends).source.store.entries := by
    rw [firstSource]
    exact here
  have apart : ((keys.filterMap ends.source.store.find).map Prod.fst).Nodup := by
    rw [presentKeys]
    exact distinct.filter _
  have later := foldMoves req.fate replace
    (p := ⟨firstAttempt replace req.retried (keys.filterMap ends.source.store.find) ends,none,false⟩) apart inside
  have all := first.trans (later.widen (fun key member => by
    rw [presentKeys] at member
    exact (List.mem_filter.mp member).1))
  split <;> exact all

theorem migrateOk {replace : Bool} {reply : MigrateReply}
    (answer : (migrateCommand req replace false keys ends).2 = reply) (fine : ∀ busy, reply ≠ .error busy) :
    ∀ e ∈ (migrateCommand req replace false keys ends).1.source.store.entries, e.1 ∉ keys := by
  intro e member inside
  unfold migrateCommand at answer member
  dsimp only at answer member
  split at answer
  · rename_i none
    rw [if_pos none] at member
    have found := Dict.findIff.mpr ⟨member,rfl⟩
    have present : e ∈ keys.filterMap ends.source.store.find := List.mem_filterMap.mpr ⟨e.1,inside,found⟩
    rw [List.isEmpty_iff.mp none] at present
    contradiction
  rename_i some_
  rw [if_neg some_] at member
  split at answer
  · exact fine false answer.symm
  rename_i connected
  rw [if_neg connected] at member
  split at answer
  · exact fine _ answer.symm
  rename_i quiet
  simp only [quiet] at member
  cases socket : ((keys.filterMap ends.source.store.find).foldl (readReply req.fate replace false)
      ⟨firstAttempt replace req.retried (keys.filterMap ends.source.store.find) ends,none,false⟩).socketError with
  | true =>
    rw [if_pos socket] at answer
    exact fine false answer.symm
  | false =>
    have before := foldKept member
    rw [firstSource] at before
    have present : e ∈ keys.filterMap ends.source.store.find :=
      List.mem_filterMap.mpr ⟨e.1,inside,Dict.findIff.mpr ⟨before,rfl⟩⟩
    exact (foldOk quiet socket).2 e present e member rfl

/-- What a page may do, and what it has done when it is a success and its connection is still up. -/
structure PageSpec (keys : List Bytes) (ends : Ends Value) (r : PageResult Value) : Prop where
  moves : Moves keys ends r.ends
  done : r.success = true → r.link = true → ∀ e ∈ r.ends.source.store.entries, e.1 ∉ keys

theorem retrySpec (o : Options Value) (busy : Bool) (round : Round) (ends : Ends Value) (distinct : keys.Nodup) :
    PageSpec keys ends (retryPage o false busy round keys ends) := by
  have moves := migrateMoves round.second busy ends distinct
  unfold retryPage clusterManagerMigrateKeysInReply
  split
  · exact ⟨.refl _ _,by simp⟩
  · dsimp only
    split
    · exact ⟨moves,by simp⟩
    · exact ⟨moves,by simp⟩
    · rename_i reply fine answer
      split at answer <;> try contradiction
      exact ⟨moves,fun _ _ => migrateOk (Option.some.inj answer) fine⟩

theorem pageSpec (o : Options Value) (round : Round) (ends : Ends Value) (distinct : keys.Nodup) :
    PageSpec keys ends (migratePage o false round keys ends) := by
  have moves := migrateMoves round.first false ends distinct
  unfold migratePage
  dsimp only [clusterManagerMigrateKeysInReply]
  split
  · exact ⟨moves,by simp⟩
  · split
    · obtain ⟨later,done⟩ := retrySpec o _ round (migrateCommand round.first false false keys ends).1 distinct
      exact ⟨moves.trans later,done⟩
    · exact ⟨moves,by simp⟩
  · rename_i reply fine answer
    split at answer <;> try contradiction
    exact ⟨moves,fun _ _ => migrateOk (Option.some.inj answer) fine⟩

end pages

section rounds
variable {o : Options Value} {slot : Slot} {pipeline offset : Nat} {link : Bool} {rounds : List Round}
  {ends : Ends Value} {r : Ends Value × Bool}

def pageKeys (slot : Slot) (pipeline offset : Nat) (ends : Ends Value) : List Bytes :=
  ((keysOf slot ends.source).drop offset).take pipeline

theorem pageDistinct (slot : Slot) (pipeline offset : Nat) (ends : Ends Value) :
    (pageKeys slot pipeline offset ends).Nodup :=
  (keysDistinct slot ends.source).sublist ((List.take_sublist _ _).trans (List.drop_sublist _ _))

theorem pageSub {key : Bytes} (member : key ∈ pageKeys slot pipeline offset ends) :
    key ∈ keysOf slot ends.source := List.mem_of_mem_drop (List.mem_of_mem_take member)

inductive RoundWay (o : Options Value) (slot : Slot) (pipeline offset : Nat) (rest : List Round)
    (ends : Ends Value) (keys : List Bytes) : Bool → Option (Ends Value × Bool) → Prop where
  | stopped {up} : RoundWay o slot pipeline offset rest ends keys up (some (ends,false))
  | listed (none : keys = []) : RoundWay o slot pipeline offset rest ends keys true (some (ends,true))
  | failed {after} (spec : Moves keys ends after) :
      RoundWay o slot pipeline offset rest ends keys true (some (after,false))
  | moved {page} (some_ : keys ≠ []) (spec : PageSpec keys ends page) (success : page.success = true) :
      RoundWay o slot pipeline offset rest ends keys true
        (clusterManagerMigrateKeysInSlotHelp o slot pipeline false rest (offset + pipeline) page.link page.ends)

theorem roundWay (o : Options Value) (slot : Slot) (pipeline offset : Nat) (link : Bool) (round : Round)
    (rest : List Round) (ends : Ends Value) :
    RoundWay o slot pipeline offset rest ends (pageKeys slot pipeline offset ends) link
      (clusterManagerMigrateKeysInSlotHelp o slot pipeline false (round :: rest) offset link ends) := by
  have spec := pageSpec o round ends (pageDistinct slot pipeline offset ends)
  have listing : getkeysinslot slot pipeline offset ends.source = pageKeys slot pipeline offset ends :=
    getkeysinslotPage slot pipeline offset ends.source
  rw [clusterManagerMigrateKeysInSlotHelp,listing]
  split
  · exact .stopped
  rename_i up
  obtain rfl : link = true := by
    cases link with
    | true => rfl
    | false => simp at up
  dsimp only
  split
  · rename_i none
    exact .listed (List.isEmpty_iff.mp none)
  rename_i some_
  split
  · rename_i success
    exact .moved (by simpa using some_) spec success
  · exact .failed spec.moves

theorem helpMoves (ok : clusterManagerMigrateKeysInSlotHelp o slot pipeline false rounds offset link ends = some r) :
    Moves (keysOf slot ends.source) ends r.1 := by
  induction rounds generalizing offset link ends with
  | nil => contradiction
  | cons round rest ih =>
    have way := roundWay o slot pipeline offset link round rest ends
    rw [ok] at way
    generalize result : some r = out at way
    cases way with
    | stopped => cases Option.some.inj result; exact .refl _ _
    | listed => cases Option.some.inj result; exact .refl _ _
    | failed spec => cases Option.some.inj result; exact spec.widen (fun _ => pageSub)
    | @moved page _ spec =>
      have later := ih result.symm
      obtain ⟨keep,_,same⟩ := spec.moves.keysOf slot
      refine (spec.moves.widen fun _ => pageSub).trans (later.widen fun key member => ?_)
      rw [same] at member
      exact (List.mem_filter.mp member).1

theorem helpEmpty (none : keysOf slot ends.source = [])
    (ok : clusterManagerMigrateKeysInSlotHelp o slot pipeline false rounds offset link ends = some r) :
    keysOf slot r.1.source = [] := by
  obtain ⟨keep,_,same⟩ := (helpMoves ok).keysOf slot
  rw [same,none]
  rfl

/-- From a positive offset on the first key of the slot is never reached. -/
theorem helpKeeps {key : Bytes} {more : List Bytes} (positive : 0 < offset)
    (first : keysOf slot ends.source = key :: more)
    (ok : clusterManagerMigrateKeysInSlotHelp o slot pipeline false rounds offset link ends = some r) :
    key ∈ keysOf slot r.1.source := by
  induction rounds generalizing offset link ends more with
  | nil => contradiction
  | cons round rest ih =>
    have here : key ∈ keysOf slot ends.source := by rw [first]; exact List.mem_cons_self
    have out : key ∉ pageKeys slot pipeline offset ends := by
      have distinct := keysDistinct slot ends.source
      rw [pageKeys,first]
      rw [first] at distinct
      intro member
      have later := List.mem_of_mem_take member
      rw [List.drop_cons positive] at later
      exact (List.nodup_cons.mp distinct).1 (List.mem_of_mem_drop later)
    have way := roundWay o slot pipeline offset link round rest ends
    rw [ok] at way
    generalize result : some r = result' at way
    cases way with
    | stopped => cases Option.some.inj result; exact here
    | listed => cases Option.some.inj result; exact here
    | failed spec =>
      cases Option.some.inj result
      obtain ⟨keep,all,same⟩ := spec.keysOf slot
      rw [same]
      exact List.mem_filter.mpr ⟨here,all key out⟩
    | @moved page _ spec =>
      obtain ⟨keep,all,same⟩ := spec.moves.keysOf slot
      rw [first,List.filter_cons_of_pos (all key out)] at same
      exact ih (Nat.lt_of_lt_of_le positive (Nat.le_add_right _ _)) same result.symm

theorem helpLeaves (positive : 0 < pipeline) (long : pipeline < (keysOf slot ends.source).length)
    (ok : clusterManagerMigrateKeysInSlotHelp o slot pipeline false rounds 0 link ends = some r) :
    keysOf slot r.1.source ≠ [] := by
  cases rounds with
  | nil => contradiction
  | cons round rest =>
    have some_ : keysOf slot ends.source ≠ [] := fun none => by simp [none] at long
    -- The key that follows the first page.
    have here : (keysOf slot ends.source)[pipeline] ∈ keysOf slot ends.source := List.getElem_mem long
    have out : (keysOf slot ends.source)[pipeline] ∉ pageKeys slot pipeline 0 ends := by
      rw [pageKeys,List.drop_zero]
      intro member
      obtain ⟨i,below,same⟩ := List.getElem_of_mem member
      simp only [List.length_take] at below
      rw [List.getElem_take] at same
      have index := (List.Nodup.getElem_inj_iff (keysDistinct slot ends.source)).mp same
      omega
    have survives : ∀ {after}, Moves (pageKeys slot pipeline 0 ends) ends after →
        keysOf slot after.source ≠ [] := by
      intro after spec none
      obtain ⟨keep,all,same⟩ := spec.keysOf slot
      have still := List.mem_filter.mpr ⟨here,all _ out⟩
      rw [← same,none] at still
      contradiction
    have way := roundWay o slot pipeline 0 link round rest ends
    rw [ok] at way
    generalize result : some r = result' at way
    cases way with
    | stopped => cases Option.some.inj result; exact some_
    | listed => cases Option.some.inj result; exact some_
    | failed spec => cases Option.some.inj result; exact survives spec
    | @moved page _ spec =>
      obtain ⟨key,more,first⟩ := List.exists_cons_of_ne_nil (survives spec.moves)
      rw [Nat.zero_add] at result
      exact List.ne_nil_of_mem (helpKeeps positive first result.symm)

theorem helpClears {after : Ends Value} (short : (keysOf slot ends.source).length ≤ pipeline)
    (ok : clusterManagerMigrateKeysInSlotHelp o slot pipeline false rounds 0 true ends = some (after,true)) :
    keysOf slot after.source = [] := by
  cases rounds with
  | nil => contradiction
  | cons round rest =>
    have whole : pageKeys slot pipeline 0 ends = keysOf slot ends.source := List.take_of_length_le short
    have way := roundWay o slot pipeline 0 true round rest ends
    rw [ok,whole] at way
    generalize result : some (after,true) = result' at way
    cases way with
    | stopped => cases Option.some.inj result
    | listed none => cases Option.some.inj result; exact none
    | failed => cases Option.some.inj result
    | @moved page _ spec success =>
      cases link : page.link with
      | true =>
        refine helpEmpty ?_ result.symm
        apply List.eq_nil_iff_forall_not_mem.mpr
        intro key member
        obtain ⟨slotted,value,inside⟩ := memKeysOf.mp member
        exact spec.done success link _ inside (memKeysOf.mpr ⟨slotted,value,spec.moves.kept inside⟩)
      | false =>
        rw [link] at result
        cases rest with
        | nil => contradiction
        | cons round rest => simp [clusterManagerMigrateKeysInSlotHelp] at result

theorem helpTotal (o : Options Value) (link : Bool) (round : Round) (rounds : List Round) (ends : Ends Value)
    (enough : (keysOf slot ends.source).length ≤ offset + pipeline * rounds.length) :
    ∃ r, clusterManagerMigrateKeysInSlotHelp o slot pipeline false (round :: rounds) offset link ends = some r := by
  induction rounds generalizing offset link ends round with
  | nil =>
    have none : pageKeys slot pipeline offset ends = [] := by
      rw [pageKeys,List.drop_eq_nil_of_le (by simpa using enough),List.take_nil]
    have way := roundWay o slot pipeline offset link round [] ends
    generalize clusterManagerMigrateKeysInSlotHelp o slot pipeline false [round] offset link ends = result at way
    cases way with
    | moved some_ => exact absurd none some_
    | _ => exact ⟨_,rfl⟩
  | cons next rest ih =>
    have way := roundWay o slot pipeline offset link round (next :: rest) ends
    generalize clusterManagerMigrateKeysInSlotHelp o slot pipeline false (round :: next :: rest) offset link ends =
      result at way
    cases way with
    | @moved page _ spec =>
      obtain ⟨keep,_,same⟩ := spec.moves.keysOf slot
      have fewer : (keysOf slot page.ends.source).length ≤ (keysOf slot ends.source).length := by
        rw [same]
        exact List.length_filter_le _ _
      refine ih page.link next page.ends ?_
      rw [List.length_cons,Nat.mul_succ] at enough
      omega
    | _ => exact ⟨_,rfl⟩

end rounds

section answered
variable {o : Options Value} {slot : Slot} {pipeline : Nat}

def answeredRequest : Request := ⟨true,none,fun _ => .answered,true⟩

def answeredRound : Round := ⟨.keys,answeredRequest,true,true,answeredRequest⟩

def Apart (ends : Ends Value) : Prop := ∀ e ∈ ends.source.store.entries, ends.target.has e.1 = false

theorem answeredFold {present : List (Bytes × Value)} {p : Progress Value}
    (distinct : (present.map Prod.fst).Nodup) (inside : ∀ e ∈ present, e ∈ p.ends.source.store.entries)
    (apart : Apart p.ends) (clean : p.error = none ∧ p.socketError = false) :
    let last := present.foldl (readReply answeredRequest.fate false false) p
    Apart last.ends ∧ last.error = none ∧ last.socketError = false := by
  induction present generalizing p with
  | nil => exact ⟨apart,clean⟩
  | cons e rest ih =>
    obtain ⟨fresh,distinct⟩ := List.nodup_cons.mp distinct
    have free : p.ends.target.has e.1 = false := apart e (inside e List.mem_cons_self)
    have step : readReply answeredRequest.fate false false p e =
        { p with ends := ⟨p.ends.source.dbDelete e.1,p.ends.target.replace e⟩ } := by
      simp [readReply,answeredRequest,restore,clean.2,free]
    rw [List.foldl_cons,step]
    refine ih distinct ?_ ?_ clean
    · intro f member
      exact Dict.memDelete.mpr ⟨inside f (List.mem_cons_of_mem _ member),
        fun same => fresh (same ▸ List.mem_map_of_mem member)⟩
    · intro f member
      obtain ⟨still,other⟩ := Dict.memDelete.mp member
      rw [Dict.hasReplace,apart f still]
      simpa using other.symm

theorem answeredPage {ends : Ends Value} {keys : List Bytes} (distinct : keys.Nodup) (apart : Apart ends) :
    let r := migratePage o false answeredRound keys ends
    Apart r.ends ∧ r.success = true ∧ r.link = true := by
  have pairs : ((keys.filterMap ends.source.store.find).map Prod.fst).Nodup := by
    rw [presentKeys]
    exact distinct.filter _
  obtain ⟨later,error,socket⟩ := answeredFold (p := ⟨ends,none,false⟩) pairs (fun _ => presentInside) apart ⟨rfl,rfl⟩
  by_cases none : (keys.filterMap ends.source.store.find).isEmpty = true
  · simp [migratePage,clusterManagerMigrateKeysInReply,migrateCommand,answeredRound,answeredRequest,none,apart]
  · simp only [answeredRequest] at later error socket
    simp [migratePage,clusterManagerMigrateKeysInReply,migrateCommand,answeredRound,answeredRequest,
      firstAttempt,none,error,socket,later]

theorem answeredSuccess {rounds : Nat} {offset : Nat} {ends : Ends Value} {r : Ends Value × Bool}
    (apart : Apart ends)
    (ok : clusterManagerMigrateKeysInSlotHelp o slot pipeline false (List.replicate rounds answeredRound) offset
      true ends = some r) : r.2 = true := by
  induction rounds generalizing offset ends with
  | zero => contradiction
  | succ rounds ih =>
    have listing : getkeysinslot slot pipeline offset ends.source = pageKeys slot pipeline offset ends :=
      getkeysinslotPage slot pipeline offset ends.source
    obtain ⟨later,success,link⟩ := answeredPage (o := o) (pageDistinct slot pipeline offset ends) apart
    rw [List.replicate_succ,clusterManagerMigrateKeysInSlotHelp,if_neg (by decide),listing] at ok
    dsimp only at ok
    split at ok
    · cases Option.some.inj ok
      rfl
    · rw [link] at ok
      exact ih later ok

end answered

/-- No key of the slot is left at the source, and the target has them all with their values. -/
structure Complete (slot : Slot) (before after : Ends Value) : Prop where
  gone : keysOf slot after.source = []
  there : ∀ e ∈ before.source.store.entries, keyHashSlot e.1 = slot → e ∈ after.target.entries

theorem movesComplete {slot : Slot} {keys : List Bytes} {before after : Ends Value} (moves : Moves keys before after)
    (gone : keysOf slot after.source = []) : Complete slot before after := by
  refine ⟨gone,fun e member slotted => moves.moved e member fun still => ?_⟩
  have inside : e.1 ∈ keysOf slot after.source := memKeysOf.mpr ⟨slotted,e.2,still⟩
  rw [gone] at inside
  contradiction

theorem movedIff {o : Options Value} {slot : Slot} {pipeline : Nat} {rounds : List Round} {ends after : Ends Value}
    (positive : 0 < pipeline)
    (ok : clusterManagerMigrateKeysInSlot o slot pipeline rounds ends = some (after,true)) :
    keysOf slot after.source = [] ↔ (keysOf slot ends.source).length ≤ pipeline := by
  constructor
  · intro gone
    by_contra long
    exact helpLeaves positive (Nat.lt_of_not_le long) ok gone
  · exact fun short => helpClears short ok

/-- A move that reports success is complete exactly when the keys of the slot fit in one page,
and only then has the slot been reassigned with no key left behind. -/
theorem slotMoveComplete (o : Options Value) (slot : Slot) {pipeline : Nat} (positive : 0 < pipeline)
    (source : Db Value) :
    ((∀ target rounds after, clusterManagerMigrateKeysInSlot o slot pipeline rounds ⟨source,target⟩ = some (after,true) →
        Complete slot ⟨source,target⟩ after) ↔ (keysOf slot source).length ≤ pipeline) ∧
    (∀ target rounds after, clusterManagerMigrateKeysInSlot o slot pipeline rounds ⟨source,target⟩ = some (after,true) →
      (keysOf slot after.source = [] ↔ (keysOf slot source).length ≤ pipeline)) ∧
    ∀ optionCold setslot target rounds r,
      clusterManagerMoveSlot o optionCold setslot slot pipeline rounds ⟨source,target⟩ = some r →
      r.told ≠ [] → (keysOf slot r.ends.source = [] ↔ (keysOf slot source).length ≤ pipeline) := by
  have moved : ∀ target rounds after,
      clusterManagerMigrateKeysInSlot o slot pipeline rounds ⟨source,target⟩ = some (after,true) →
      (keysOf slot after.source = [] ↔ (keysOf slot source).length ≤ pipeline) :=
    fun target rounds after ok => movedIff positive ok
  refine ⟨⟨fun complete => ?_,fun short target rounds after ok => ?_⟩,moved,?_⟩
  · -- Into an empty target every request succeeds, and the move ends as a success.
    have enough : (keysOf slot source).length ≤ 0 + pipeline * (keysOf slot source).length := by
      rw [Nat.zero_add]
      exact Nat.le_mul_of_pos_left _ positive
    obtain ⟨r,ok⟩ := helpTotal o true answeredRound (List.replicate (keysOf slot source).length answeredRound)
      ⟨source,.empty⟩ (by rwa [List.length_replicate])
    rw [← List.replicate_succ] at ok
    have success := answeredSuccess (fun _ _ => rfl) ok
    obtain ⟨after,_⟩ := r
    obtain rfl := success
    exact (moved .empty _ after ok).mp (complete .empty _ after ok).gone
  · exact movesComplete (helpMoves ok) ((moved target rounds after ok).mpr short)
  · intro optionCold setslot target rounds r ok told
    unfold clusterManagerMoveSlot at ok
    split at ok
    · cases Option.some.inj ok
      exact absurd rfl told
    split at ok
    · contradiction
    · cases Option.some.inj ok
      exact absurd rfl told
    · rename_i after done
      split at ok
      · cases Option.some.inj ok
        exact absurd rfl told
      · cases Option.some.inj ok
        exact moved target rounds after done

def plainOptions : Options Bytes := ⟨false,id⟩

/-- Two keys of one slot: `{k}1` and `{k}2`. -/
def twoKeys : Db Bytes := ⟨⟨[([123,107,125,49],[97]),([123,107,125,50],[98])],by decide⟩,by decide⟩

def slotOfK : Slot := keyHashSlot [107]

theorem slotMoveCompleteShown : ∃ after,
    clusterManagerMigrateKeysInSlot plainOptions slotOfK 2 [answeredRound,answeredRound] ⟨twoKeys,.empty⟩ =
      some (after,true) ∧ Complete slotOfK ⟨twoKeys,.empty⟩ after := by
  obtain ⟨after,ok⟩ : ∃ after, clusterManagerMigrateKeysInSlot plainOptions slotOfK 2
      [answeredRound,answeredRound] ⟨twoKeys,.empty⟩ = some (after,true) := ⟨_,rfl⟩
  exact ⟨after,ok,(slotMoveComplete plainOptions slotOfK (by decide) twoKeys).1.mpr (by decide) _ _ _ ok⟩

/-- With one key to a page the second key is passed over, and every master is told the new owner. -/
theorem keyLeftBehind : ∃ r, clusterManagerMoveSlot plainOptions false ⟨true,true,[(1,true),(2,true)]⟩ slotOfK 1
      [answeredRound,answeredRound] ⟨twoKeys,.empty⟩ = some r ∧ r.success = true ∧ r.told = [1,2] ∧
    keysOf slotOfK r.ends.source = [[123,107,125,50]] ∧ r.ends.target.has [123,107,125,50] = false :=
  ⟨_,rfl,by decide,by decide,by decide,by decide⟩

end HpuCache.SlotMove
