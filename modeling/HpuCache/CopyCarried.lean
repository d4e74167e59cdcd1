import HpuCache.CopyProtocol
import HpuCache.CommandPath
import HpuCache.CommandTable

/-! No write of a copy is lost when a page carried it. From then on the target holds what
the owner held, and everything that may still be applied to the key there is later. -/
namespace HpuCache.CopyCarried
open ByteText KeySlot KeyedDict CommandCache ServerState GroupCommands ProcessCommand SlotTrace CommandPath MemberStep
open SlotIndex SlotMove CopyProtocol EventRun

variable {Value : Type} {cmds : DataCommands Value} {c : Copy Value}

section logs
variable {σ ε : Type}

theorem findFold {find : σ → Option ε} {change : σ → Bytes → σ} {key : Bytes} {new : Option ε}
    (here : ∀ s, find (change s key) = new) (elsewhere : ∀ s k, k ≠ key → find (change s k) = find s)
    (keys : List Bytes) (s : σ) : find (keys.foldl change s) = if key ∈ keys then new else find s := by
  induction keys generalizing s with
  | nil => rfl
  | cons k rest ih =>
    rw [List.foldl_cons,ih]
    by_cases later : key ∈ rest
    · simp [later]
    · rcases eq_or_ne k key with rfl | other
      · simp [later,here]
      · simp [later,elsewhere s k other,Ne.symm other]

/-- A command on one side adds its moment to the log of each key that it writes. -/
theorem runLog (look : σ → Bytes → Option (Bytes × Dated Value)) {set : σ → Bytes × Dated Value → σ}
    {delete : σ → Bytes → σ} (stored : ∀ s e key, look (set s e) key = if e.1 = key then some e else look s key)
    (gone : ∀ s k key, look (delete s k) key = if k = key then none else look s key) (result : Bytes → Option Value)
    (log buried : Bytes → List Nat) (keys : List Bytes) (s : σ) (key : Bytes) :
    logOf (look (keys.foldl (fun s key => match result key with
      | some v => set s (key,v,log key)
      | none => delete s key) s) key) (if key ∈ keys then log key else buried key) =
      if key ∈ keys then log key else logOf (look s key) (buried key) := by
  have found := @findFold _ _ (fun s => look s key) (fun s key => match result key with
      | some v => set s (key,v,log key)
      | none => delete s key) key ((result key).map fun v => (key,v,log key))
    (fun s => by cases left : result key <;> simp [stored,gone])
    (fun s k other => by cases left : result k <;> simp [stored,gone,other]) keys s
  rw [found]
  split
  · cases result key <;> rfl
  · rfl

theorem sourceRun (moment : Nat) (d : Sides Value) (argv : List Bytes) (key : Bytes) :
    (runAtSource cmds moment d argv).sourceLog key =
      if key ∈ cmds.writes argv then d.sourceLog key ++ [moment] else d.sourceLog key :=
  runLog (fun (db : Db (Dated Value)) key => db.store.find key) findSetKey
    (fun db k key => Dict.findDelete db.store k key) _ (fun key => d.sourceLog key ++ [moment]) d.sourceBuried _ _ key

theorem targetRun (moment : Nat) (d : Sides Value) (argv : List Bytes) (key : Bytes) :
    (runAtTarget cmds moment d argv).targetLog key =
      if key ∈ cmds.writes argv then d.targetLog key ++ [moment] else d.targetLog key :=
  runLog (fun (store : Store (Dated Value)) key => store.find key) Dict.findReplace Dict.findDelete _
    (fun key => d.targetLog key ++ [moment]) d.targetBuried _ _ key

theorem sourceRunTarget (moment : Nat) (d : Sides Value) (argv : List Bytes) (key : Bytes) :
    (runAtSource cmds moment d argv).targetLog key = d.targetLog key := rfl
theorem targetRunSource (moment : Nat) (d : Sides Value) (argv : List Bytes) (key : Bytes) :
    (runAtTarget cmds moment d argv).sourceLog key = d.sourceLog key := rfl

end logs

section pages

/-- A copy leaves the source alone and changes a key of the target to what the source has there. -/
structure Copies (a b : Ends (Dated Value)) : Prop where
  source : b.source = a.source
  target : ∀ key, b.target.find key = a.target.find key ∨
    ∃ e, a.source.store.find key = some e ∧ b.target.find key = some e

variable {a b d : Ends (Dated Value)}

theorem Copies.refl (a : Ends (Dated Value)) : Copies a a := ⟨rfl,fun _ => .inl rfl⟩

theorem Copies.trans (first : Copies a b) (second : Copies b d) : Copies a d := by
  refine ⟨second.source.trans first.source,fun key => ?_⟩
  rcases second.target key with same | ⟨e,found,now⟩
  · rw [same]
    exact first.target key
  · exact .inr ⟨e,first.source ▸ found,now⟩

theorem copiesRestore {replace restored : Bool} {e : Bytes × Dated Value} (present : e ∈ a.source.store.entries) :
    Copies a { a with target := restoreSilently replace restored e a.target } := by
  have kept : Copies a { a with target := a.target } := .refl a
  simp only [restoreSilently,restore]
  split
  · split
    · exact kept
    · refine ⟨rfl,fun key => ?_⟩
      rcases eq_or_ne e.1 key with rfl | other
      · exact .inr ⟨e,Dict.findIff.mpr ⟨present,rfl⟩,Dict.findReplaceSame a.target e⟩
      · exact .inl (Dict.findReplaceOther a.target other)
  · exact kept

theorem restoredSilently {replace : Bool} {e : Bytes × Dated Value} {store : Store (Dated Value)}
    (done : restore replace e a.target = some store) : restoreSilently replace true e a.target = store := by
  rw [restoreSilently,if_pos rfl,done]
  rfl

theorem copiesReply (fate : Bytes → Fate) (replace : Bool) {p : Progress (Dated Value)} {e : Bytes × Dated Value}
    (present : e ∈ p.ends.source.store.entries) : Copies p.ends (readReply fate replace true p e).ends := by
  simp only [readReply]
  split
  · exact copiesRestore present
  · split
    · split
      · exact .refl _
      · next store done => exact restoredSilently done ▸ copiesRestore present
    · exact .refl _
    · exact copiesRestore present

theorem copiesReplies (fate : Bytes → Fate) (replace : Bool) {present : List (Bytes × Dated Value)}
    {p : Progress (Dated Value)} (inside : ∀ e ∈ present, e ∈ p.ends.source.store.entries) :
    Copies p.ends (present.foldl (readReply fate replace true) p).ends := by
  induction present generalizing p with
  | nil => exact .refl _
  | cons e rest ih =>
    have one := copiesReply fate replace (inside e List.mem_cons_self)
    refine one.trans (ih fun f member => ?_)
    rw [one.source]
    exact inside f (List.mem_cons_of_mem _ member)

theorem copiesFirst (replace : Bool) (retried : Option (Bytes → Bool)) {present : List (Bytes × Dated Value)}
    (inside : ∀ e ∈ present, e ∈ a.source.store.entries) : Copies a (firstAttempt replace retried present a) := by
  cases retried with
  | none => exact .refl a
  | some restored =>
    have all : ∀ store, Copies { a with target := store } { a with
        target := present.foldl (fun target e => restoreSilently replace (restored e.1) e target) store } := by
      induction present with
      | nil => exact fun store => .refl _
      | cons e rest ih =>
        intro store
        have one := @copiesRestore _ { a with target := store } replace (restored e.1) e (inside e List.mem_cons_self)
        exact one.trans (ih (fun f member => inside f (List.mem_cons_of_mem _ member)) _)
    exact all a.target

theorem copiesPage (req : Request) (replace : Bool) (keys : List Bytes) (a : Ends (Dated Value)) :
    Copies a (clusterManagerMigrateKeysInReply req replace true keys a).1 := by
  have inside : ∀ e ∈ keys.filterMap a.source.store.find, e ∈ a.source.store.entries := by
    intro e member
    obtain ⟨key,_,found⟩ := List.mem_filterMap.mp member
    exact (Dict.findMem found).1
  simp only [clusterManagerMigrateKeysInReply,migrateCommand]
  split
  · exact .refl a
  · split
    · exact .refl a
    · have first := copiesFirst replace req.retried inside
      have last := first.trans (@copiesReplies _ req.fate replace (keys.filterMap a.source.store.find)
        ⟨firstAttempt replace req.retried (keys.filterMap a.source.store.find) a,none,false⟩
        (by rw [first.source]; exact inside))
      split
      · exact last
      · exact last

end pages

section effects
variable {now : Nat} {target : NodeId} {slot : Slot}

def AgreeAt (slot : Slot) (v w : List Waiting) : Prop := ∀ x : Waiting, x.slot = slot → (x ∈ v ↔ x ∈ w)

theorem agreeNote {v w : List Waiting} (agree : AgreeAt slot v w) (e : Effect) :
    AgreeAt slot (noteWaiting now v e) (noteWaiting now w e) := by
  intro x here
  cases e with
  | cached s op => simp only [noteWaiting,List.mem_cons,agree x here]
  | flushed s f => simp only [noteWaiting,List.mem_filter,agree x here]

theorem agreeOther {v w : List Waiting} (agree : AgreeAt slot v w) {e : Effect} (other : e.slot ≠ slot) :
    AgreeAt slot (noteWaiting now v e) w := by
  intro x here
  cases e with
  | cached s op =>
    have apart : x ≠ ⟨s,op,now⟩ := by
      rintro rfl
      exact other here
    simp only [noteWaiting,List.mem_cons,apart,false_or,agree x here]
  | flushed s f =>
    have apart : x.slot ≠ s := fun same => other (same.symm.trans here)
    simp [noteWaiting,apart,agree x here]

/-- Every command that the effects send waits when it is sent. -/
def Backed (now : Nat) : List Effect → List Waiting → Prop
  | [],_ => True
  | e :: rest,waiting => (∀ s ∈ e.sends, ∃ w ∈ waiting, w.slot = e.slot ∧ w.op = s.op) ∧
      Backed now rest (noteWaiting now waiting e)

theorem backedSlots {es : List Effect} {waiting : List Waiting}
    (each : ∀ slot, ∃ w, AgreeAt slot waiting w ∧ Backed now (es.filter fun e => e.slot = slot) w) :
    Backed now es waiting := by
  induction es generalizing waiting with
  | nil => trivial
  | cons e rest ih =>
    obtain ⟨w,agree,backed⟩ := each e.slot
    rw [List.filter_cons_of_pos (by simp)] at backed
    refine ⟨fun s sent => ?_,ih fun slot => ?_⟩
    · obtain ⟨x,member,here,same⟩ := backed.1 s sent
      exact ⟨x,(agree x here).mpr member,here,same⟩
    · by_cases own : e.slot = slot
      · subst own
        exact ⟨_,agreeNote agree e,backed.2⟩
      · obtain ⟨v,agreeV,backedV⟩ := each slot
        rw [List.filter_cons_of_neg (by simpa using own)] at backedV
        exact ⟨v,agreeOther agreeV own,backedV⟩

def Mirrors (slot : Slot) (st : SlotState) (waiting : List Waiting) : Prop :=
  ∀ op ∈ st.cachedOp.entries, ∃ w ∈ waiting, w.slot = slot ∧ w.op = op

theorem mirrorsAgree {st : SlotState} {v w : List Waiting} (agree : AgreeAt slot v w) (mirrors : Mirrors slot st v) :
    Mirrors slot st w := by
  intro op member
  obtain ⟨x,inside,here,same⟩ := mirrors op member
  exact ⟨x,(agree x here).mp inside,here,same⟩

variable {myself : NodeId} {group : Roster} {own : CacheOps → Prop} {a b : SlotState} {es : List Effect}

theorem mirrorsTrace (trace : Trace myself group slot own a es b) {waiting : List Waiting}
    (mirrors : Mirrors slot a waiting) :
    Backed now es waiting ∧ Mirrors slot b (es.foldl (noteWaiting now) waiting) := by
  induction trace generalizing waiting with
  | done => exact ⟨trivial,mirrors⟩
  | frame cached _ _ ih =>
    refine ih fun op member => mirrors op ?_
    rwa [cached] at member
  | @add a op effects c mine _ ih =>
    have next : Mirrors slot (added op a) (⟨slot,op,now⟩ :: waiting) := by
      intro o member
      rcases Dict.memReplace.mp member with rfl | ⟨old,_⟩
      · exact ⟨_,List.mem_cons_self,rfl,rfl⟩
      · obtain ⟨w,inside,here,same⟩ := mirrors o old
        exact ⟨w,List.mem_cons_of_mem _ inside,here,same⟩
    obtain ⟨backed,last⟩ := ih next
    exact ⟨⟨by simp [Effect.sends],backed⟩,last⟩
  | @flush a effects c order _ _ ih =>
    obtain ⟨d,n,shape,kept⟩ := broadcastFrame order myself a
    have next : Mirrors slot (broadcastCommandInHotGroup order myself a).1
        (noteWaiting now waiting (.flushed slot (flushRecord order myself a))) := by
      intro o member
      have old : o ∈ a.cachedOp.entries := by
        rw [shape] at member
        exact kept o member
      obtain ⟨w,inside,here,same⟩ := mirrors o old
      refine ⟨w,List.mem_filter.mpr ⟨inside,?_⟩,here,same⟩
      rw [decide_eq_true_eq,same]
      exact .inr member
    obtain ⟨backed,last⟩ := ih next
    refine ⟨⟨fun s sent => ?_,backed⟩,last⟩
    exact mirrors s.op (broadcastSends order myself a sent).1

theorem agreeFold {v w : List Waiting} (agree : AgreeAt slot v w) (es : List Effect) :
    AgreeAt slot (es.foldl (noteWaiting now) v) ((es.filter fun e => e.slot = slot).foldl (noteWaiting now) w) := by
  induction es generalizing v w with
  | nil => exact agree
  | cons e rest ih =>
    by_cases same : e.slot = slot
    · rw [List.filter_cons_of_pos (by simpa using same)]
      exact ih (agreeNote agree e)
    · rw [List.filter_cons_of_neg (by simpa using same)]
      exact ih (agreeOther agree same)

theorem noteFirst (es : List Effect) (waiting : List Waiting) (wire : List Sent) :
    (note now target es waiting wire).1 = es.foldl (noteWaiting now) waiting := by
  induction es generalizing waiting wire with
  | nil => rfl
  | cons e rest ih => exact ih _ _

theorem momentFound {waiting : List Waiting} {op : CacheOps} (found : ∃ w ∈ waiting, w.slot = slot ∧ w.op = op) :
    ∃ w ∈ waiting, w.op = op ∧ momentOf waiting slot op = w.moment := by
  obtain ⟨w,inside,here,same⟩ := found
  rw [momentOf]
  cases first : waiting.find? fun w => w.slot = slot ∧ w.op = op with
  | none =>
    have never := List.find?_eq_none.mp first w inside
    rw [decide_eq_true_eq] at never
    exact absurd ⟨here,same⟩ never
  | some x =>
    have holds := List.find?_some first
    rw [decide_eq_true_eq] at holds
    exact ⟨x,List.mem_of_find?_eq_some first,holds.2,rfl⟩

/-- What holds of the commands that wait, and of those that come, holds of those that are sent. -/
theorem noteAll {good : CacheOps → Nat → Prop} {es : List Effect} {waiting : List Waiting} {wire : List Sent}
    (backed : Backed now es waiting) (new : ∀ slot op, Effect.cached slot op ∈ es → good op now)
    (held : ∀ w ∈ waiting, good w.op w.moment) (sent : ∀ s ∈ wire, good s.op s.moment) :
    (∀ w ∈ (note now target es waiting wire).1, good w.op w.moment) ∧
    ∀ s ∈ (note now target es waiting wire).2, good s.op s.moment := by
  induction es generalizing waiting wire with
  | nil => exact ⟨held,sent⟩
  | cons e rest ih =>
    refine ih backed.2 (fun slot op later => new slot op (List.mem_cons_of_mem _ later)) ?_ ?_
    · intro w member
      cases e with
      | cached slot op =>
        rcases List.mem_cons.mp member with rfl | old
        · exact new slot op List.mem_cons_self
        · exact held w old
      | flushed slot f => exact held w (List.mem_filter.mp member).1
    · intro s member
      cases e with
      | cached slot op => exact sent s member
      | flushed slot f =>
        rcases List.mem_append.mp member with early | late
        · exact sent s early
        · obtain ⟨op,goes,rfl⟩ := List.mem_map.mp late
          obtain ⟨w,inside,same,moment⟩ := momentFound (backed.1 _ (memSentTo.mp goes))
          simp only [Effect.slot] at same moment
          show good op (momentOf waiting slot op)
          rw [moment,← same]
          exact held w inside

end effects

section reflecting
variable {log : List Nat} {m : Nat}

theorem reflectsOrdered (ordered : log.Pairwise (· ≤ ·)) (member : m ∈ log) : Reflects m log := by
  induction log with
  | nil => contradiction
  | cons u rest ih =>
    obtain ⟨least,later⟩ := List.pairwise_cons.mp ordered
    by_cases again : m ∈ rest
    · obtain ⟨before,after,shape,newer⟩ := ih later again
      exact ⟨u :: before,after,by rw [shape,List.cons_append],newer⟩
    · obtain rfl := (List.mem_cons.mp member).resolve_right again
      refine ⟨[],rest,rfl,fun v inside => ?_⟩
      exact Nat.lt_of_le_of_ne (least v inside) fun same => again (same ▸ inside)

theorem reflectsAppend (reflects : Reflects m log) {u : Nat} (newer : m < u) : Reflects m (log ++ [u]) := by
  obtain ⟨before,after,rfl,later⟩ := reflects
  refine ⟨before,after ++ [u],by simp,fun v inside => ?_⟩
  rcases List.mem_append.mp inside with old | new
  · exact later v old
  · rwa [List.mem_singleton.mp new]

end reflecting

/-- A write whose key the target has, with nothing older still to be applied there. -/
structure Safe (cmds : DataCommands Value) (c : Copy Value) (p : Nat × Bytes) : Prop where
  reflects : Reflects p.1 (c.data.targetLog p.2)
  waiting : ∀ w ∈ c.waiting, p.2 ∈ touched cmds w.op → p.1 < w.moment
  wire : ∀ s ∈ c.wire, p.2 ∈ touched cmds s.op → p.1 < s.moment

def isMagic (op : CacheOps) : Prop := strncmpEqual (op.argv.headD []) magicWord 6 = true

structure Sound (cmds : DataCommands Value) (c : Copy Value) : Prop where
  ordered : ∀ key, (c.data.sourceLog key).Pairwise (· ≤ ·)
  past : ∀ key, ∀ u ∈ c.data.sourceLog key, u < c.clock
  applied : ∀ p, p ∈ c.accepted ∨ p ∈ c.finished → p.1 ∈ c.data.sourceLog p.2
  mirrors : ∀ s, Mirrors s (c.owner.slotStatus s) c.waiting
  magicWaiting : ∀ w ∈ c.waiting, isMagic w.op
  magicWire : ∀ s ∈ c.wire, isMagic s.op
  safe : ∀ p, p ∈ c.finished ∨ (p ∈ c.accepted ∧ p ∉ c.pending) → Safe cmds c p

theorem freshSound (fresh : Fresh c) : Sound cmds c where
  ordered := fun key => by rw [fresh.source]; exact .nil
  past := fun key => by simp [fresh.source]
  applied := fun p => by simp [fresh.accepted,fresh.finished]
  mirrors := fun s op member => by
    rw [fresh.zeroed s] at member
    simp [SlotState.zeroed,Dict.empty] at member
  magicWaiting := by simp [fresh.waiting]
  magicWire := by simp [fresh.wire]
  safe := fun p => by simp [fresh.accepted,fresh.finished]

section owner
variable {ran : List (List Bytes)} {d : Sides Value} {moment : Nat}

theorem sourceRuns (cmds : DataCommands Value) (moment : Nat) (ran : List (List Bytes))
    (d : Sides Value) (key : Bytes) :
    ∃ added, (ran.foldl (runAtSource cmds moment) d).sourceLog key = d.sourceLog key ++ added ∧
      (∀ u ∈ added, u = moment) ∧ ((∃ argv ∈ ran, key ∈ cmds.writes argv) → moment ∈ added) := by
  induction ran generalizing d with
  | nil => exact ⟨[],by simp,by simp,by simp⟩
  | cons argv rest ih =>
    obtain ⟨added,log,own,there⟩ := ih (runAtSource cmds moment d argv)
    rw [sourceRun] at log
    by_cases written : key ∈ cmds.writes argv
    · refine ⟨moment :: added,?_,?_,fun _ => List.mem_cons_self⟩
      · rw [List.foldl_cons,log,if_pos written,List.append_assoc,List.singleton_append]
      · intro u member
        rcases List.mem_cons.mp member with same | later
        · exact same
        · exact own u later
    · refine ⟨added,?_,own,?_⟩
      · rw [List.foldl_cons,log,if_neg written]
      · rintro ⟨words,member,writes⟩
        rcases List.mem_cons.mp member with rfl | later
        · exact absurd writes written
        · exact there ⟨words,later,writes⟩

theorem sourceRunsTarget (ran : List (List Bytes)) (d : Sides Value) (key : Bytes) :
    (ran.foldl (runAtSource cmds moment) d).targetLog key = d.targetLog key := by
  induction ran generalizing d with
  | nil => rfl
  | cons argv rest ih => rw [List.foldl_cons,ih,sourceRunTarget]

theorem memAcceptedNow {cl : ClusterState} {p : Nat × Bytes} (member : p ∈ acceptedNow cmds cl moment ran) :
    p.1 = moment ∧ ∃ argv ∈ ran, p.2 ∈ cmds.writes argv := by
  obtain ⟨argv,inside,written⟩ := List.mem_flatMap.mp member
  obtain ⟨key,listed,rfl⟩ := List.mem_map.mp written
  exact ⟨rfl,argv,inside,(List.mem_filter.mp listed).1⟩

theorem cachedMagic {nodes : List NodeId} {cl : ClusterState} {event : MemberEvent} {r : MemberResult}
    (ok : memberStep nodes cl event = .ok r) {slot : Slot} {op : CacheOps}
      (cached : Effect.cached slot op ∈ r.effects) :
    isMagic op := by
  have filtered : Effect.cached slot op ∈ r.effects.filter (fun e => e.slot = slot) :=
    List.mem_filter.mpr ⟨cached,by simp [Effect.slot]⟩
  have own := (traceOrigin ((memberStepSpec ok).trace slot)).2.1 op filtered
  cases event with
  | command env client argv =>
    rw [isMagic,(cacheOpsShape own).2]
    rfl
  | _ => exact own.elim

theorem soundOwner {nodes : List NodeId} {event : MemberEvent} {next : Copy Value} (sound : Sound cmds c)
    (carried : AllCarried c (.owner event)) (taken : step nodes cmds c (.owner event) = some next) :
      Sound cmds next := by
  simp only [step] at taken
  split at taken <;> try contradiction
  next r ok =>
  cases Option.some.inj taken
  have spec := memberStepSpec ok
  have backed : Backed c.clock r.effects c.waiting := backedSlots fun s =>
    ⟨c.waiting,fun _ _ => .rfl,(mirrorsTrace (spec.trace s) (sound.mirrors s)).1⟩
  have log := fun key => sourceRuns cmds c.clock (ranBy c.owner event) c.data key
  have magic := @noteAll c.clock c.target.myself (fun op _ => isMagic op) _ _ _ backed
    (fun _ _ cached => cachedMagic ok cached) sound.magicWaiting sound.magicWire
  have early : ∀ p, p ∈ c.accepted ∨ p ∈ c.finished → p.1 < c.clock :=
    fun p member => sound.past p.2 _ (sound.applied p member)
  have safe : ∀ p, p ∈ c.accepted ∨ p ∈ c.finished → Safe cmds c p →
      Reflects p.1 (((ranBy c.owner event).foldl (runAtSource cmds c.clock) c.data).targetLog p.2) ∧
      (∀ w ∈ (note c.clock c.target.myself r.effects c.waiting c.wire).1, p.2 ∈ touched cmds w.op → p.1 < w.moment) ∧
      ∀ s ∈ (note c.clock c.target.myself r.effects c.waiting c.wire).2, p.2 ∈ touched cmds s.op → p.1 < s.moment := by
    intro p member safe
    refine ⟨by rw [sourceRunsTarget]; exact safe.reflects,?_⟩
    exact @noteAll c.clock c.target.myself (fun op moment => p.2 ∈ touched cmds op → p.1 < moment) _ _ _ backed
      (fun _ _ _ _ => early p member) safe.waiting safe.wire
  constructor
  · intro key
    obtain ⟨added,shape,own,_⟩ := log key
    simp only [shape]
    refine List.pairwise_append.mpr ⟨sound.ordered key,?_,fun u old v new => ?_⟩
    · exact List.pairwise_of_forall_mem_list fun u first v second => by rw [own u first,own v second]
    · rw [own v new]
      exact (sound.past key u old).le
  · intro key u member
    obtain ⟨added,shape,own,_⟩ := log key
    simp only [shape,List.mem_append] at member
    rcases member with old | new
    · exact Nat.lt_succ_of_lt (sound.past key u old)
    · rw [own u new]
      exact Nat.lt_succ_self _
  · intro p member
    obtain ⟨added,shape,_,there⟩ := log p.2
    simp only [shape,List.mem_append]
    rcases member with current | done
    · rcases List.mem_append.mp (List.mem_filter.mp current).1 with old | new
      · exact .inl (sound.applied p (.inl old))
      · obtain ⟨now,written⟩ := memAcceptedNow new
        exact .inr (now ▸ there written)
    · rcases List.mem_append.mp done with old | new
      · exact .inl (sound.applied p (.inr old))
      · exact .inl (sound.applied p (.inl (List.mem_filter.mp new).1))
  · intro s
    have agree : AgreeAt s ((r.effects.filter fun e => e.slot = s).foldl (noteWaiting c.clock) c.waiting)
        (note c.clock c.target.myself r.effects c.waiting c.wire).1 := by
      rw [noteFirst]
      exact fun x here => (agreeFold (fun _ _ => .rfl) r.effects x here).symm
    exact mirrorsAgree agree (mirrorsTrace (spec.trace s) (sound.mirrors s)).2
  · exact magic.1
  · exact magic.2
  · intro p member
    have held : (p ∈ c.accepted ∨ p ∈ c.finished) ∧ Safe cmds c p := by
      rcases member with done | ⟨current,free⟩
      · rcases List.mem_append.mp done with old | new
        · exact ⟨.inr old,sound.safe p (.inl old)⟩
        · obtain ⟨accepted,finishes⟩ := List.mem_filter.mp new
          have free : p ∉ c.pending := fun pending => by simp [carried p pending] at finishes
          exact ⟨.inl accepted,sound.safe p (.inr ⟨accepted,free⟩)⟩
      · obtain ⟨accepted,stays⟩ := List.mem_filter.mp current
        have apart : p ∉ c.pending ++ acceptedNow cmds c.owner c.clock (ranBy c.owner event) :=
          fun pending => free (List.mem_filter.mpr ⟨pending,stays⟩)
        rw [List.mem_append,not_or] at apart
        have old := (List.mem_append.mp accepted).resolve_right apart.2
        exact ⟨.inl old,sound.safe p (.inr ⟨old,apart.1⟩)⟩
    obtain ⟨reflects,waiting,wire⟩ := safe p held.1 held.2
    exact ⟨reflects,waiting,wire⟩

end owner

theorem soundElsewhere {next : Copy Value} (sound : Sound cmds c) (owner : next.owner = c.owner)
    (source : ∀ key, next.data.sourceLog key = c.data.sourceLog key) (waiting : next.waiting = c.waiting)
    (wire : ∀ s ∈ next.wire, s ∈ c.wire) (clock : c.clock ≤ next.clock) (accepted : next.accepted = c.accepted)
    (finished : next.finished = c.finished)
    (target : ∀ p, p ∈ c.finished ∨ (p ∈ c.accepted ∧ p ∉ next.pending) → Safe cmds c p →
      Reflects p.1 (next.data.targetLog p.2))
    (pending : ∀ p ∈ c.accepted, p ∈ c.pending → p ∉ next.pending → Safe cmds next p) : Sound cmds next where
  ordered := fun key => source key ▸ sound.ordered key
  past := fun key u member => Nat.lt_of_lt_of_le (sound.past key u (source key ▸ member)) clock
  applied := fun p member => by
    rw [accepted,finished] at member
    rw [source]
    exact sound.applied p member
  mirrors := fun s => by
    rw [owner,waiting]
    exact sound.mirrors s
  magicWaiting := waiting ▸ sound.magicWaiting
  magicWire := fun s member => sound.magicWire s (wire s member)
  safe := fun p member => by
    rw [accepted,finished] at member
    have old : Safe cmds c p → Safe cmds next p := fun safe =>
      ⟨target p member safe,waiting ▸ safe.waiting,fun s inside => safe.wire s (wire s inside)⟩
    rcases member with done | ⟨current,free⟩
    · exact old (sound.safe p (.inl done))
    · by_cases before : p ∈ c.pending
      · exact pending p current before free
      · exact old (sound.safe p (.inr ⟨current,before⟩))

theorem soundTarget {nodes : List NodeId} {event : MemberEvent} {next : Copy Value} (sound : Sound cmds c)
    (taken : step nodes cmds c (.target event) = some next) : Sound cmds next := by
  simp only [step] at taken
  split at taken <;> try contradiction
  split at taken <;> try contradiction
  cases Option.some.inj taken
  exact soundElsewhere sound rfl (fun _ => rfl) rfl (fun _ member => member) (Nat.le_succ _) rfl rfl
    (fun _ _ safe => safe.reflects) fun _ _ pending free => absurd pending free

/-- A page brings the owner's value, which holds every write that the owner has taken. -/
theorem soundPage {nodes : List NodeId} {slot : Slot} {pipeline offset : Nat} {req : Request} {replace : Bool}
    {next : Copy Value} (sound : Sound cmds c)
    (taken : step nodes cmds c (.page slot pipeline offset req replace) = some next) : Sound cmds next := by
  cases Option.some.inj taken
  have copies := copiesPage req replace (getkeysinslot slot pipeline offset c.data.ends.source) c.data.ends
  generalize clusterManagerMigrateKeysInReply req replace true
    (getkeysinslot slot pipeline offset c.data.ends.source) c.data.ends = page at copies ⊢
  have source : ∀ key, ({ c.data with ends := page.1 } : Sides Value).sourceLog key = c.data.sourceLog key := by
    intro key
    simp only [Sides.sourceLog,copies.source]
  refine soundElsewhere sound rfl source rfl (fun _ member => member) (Nat.le_succ _) rfl rfl ?_ ?_
  · intro p member safe
    rcases copies.target p.2 with same | ⟨e,found,now⟩
    · simpa only [Sides.targetLog,same] using safe.reflects
    · have log : ({ c.data with ends := page.1 } : Sides Value).targetLog p.2 = c.data.sourceLog p.2 := by
        simp only [Sides.targetLog,Sides.sourceLog,found,now,logOf]
      simp only [log]
      refine reflectsOrdered (sound.ordered p.2) (sound.applied p ?_)
      rcases member with done | ⟨current,_⟩
      · exact .inr done
      · exact .inl current
  · intro p accepted pending free
    have settled : c.clear cmds p.2 = true ∧
        ({ c.data with ends := page.1 } : Sides Value).targetLog p.2 =
          ({ c.data with ends := page.1 } : Sides Value).sourceLog p.2 := by
      by_contra unsettled
      refine free (List.mem_filter.mpr ⟨pending,?_⟩)
      simpa only [Bool.not_eq_true',Bool.and_eq_false_imp,decide_eq_false_iff_not,not_and] using unsettled
    obtain ⟨clear,log⟩ := settled
    simp only [Copy.clear,Bool.and_eq_true,List.all_eq_true,decide_eq_true_eq] at clear
    refine ⟨?_,fun w inside touches => absurd touches (clear.1 w inside),
      fun s inside touches => absurd touches (clear.2 s inside)⟩
    simp only [log,source]
    exact reflectsOrdered (sound.ordered p.2) (sound.applied p (.inl accepted))

/-- What is delivered on a key of a safe write is later than the write. -/
theorem soundDeliver {nodes : List NodeId} {env : Env} {client : Client} {next : Copy Value} (sound : Sound cmds c)
    (taken : step nodes cmds c (.deliver env client) = some next) : Sound cmds next := by
  simp only [step] at taken
  split at taken <;> try contradiction
  next sent rest queue =>
  split at taken <;> try contradiction
  next single =>
  cases Option.some.inj taken
  have head : sent ∈ c.wire := by rw [queue]; exact List.mem_cons_self
  have ran : executedBy client (processCommand env c.target client sent.op.argv).exit = [] ∨
      executedBy client (processCommand env c.target client sent.op.argv).exit = [sent.op.argv.drop 2] := by
    cases exit : (processCommand env c.target client sent.op.argv).exit with
    | called cmd argv =>
      have own := forwardedCalled (sound.magicWire sent head) exit
      simp only [executedBy,not_not.mp single]
      split
      · split <;> exact .inl rfl
      · exact .inr (by rw [own])
    | _ => exact .inl rfl
  refine soundElsewhere sound rfl (fun key => ?_) rfl (fun s member => ?_) (Nat.le_succ _) rfl rfl ?_
    fun _ _ pending free => absurd pending free
  · rcases ran with none | one
    · simp only [none,List.foldl_nil]
    · simp only [one,List.foldl_cons,List.foldl_nil,targetRunSource]
  · rw [queue]
    exact List.mem_cons_of_mem _ member
  · intro p _ safe
    rcases ran with none | one
    · simpa only [none,List.foldl_nil] using safe.reflects
    · simp only [one,List.foldl_cons,List.foldl_nil,targetRun]
      split
      · next touches => exact reflectsAppend safe.reflects (safe.wire sent head touches)
      · exact safe.reflects

/-- In every run that finishes only copies whose writes were all carried, the target reflects all writes that the
owner accepted during a finished copy. -/
theorem copyCarried {nodes : List NodeId} {start : Copy Value} {past : List Event} (fresh : Fresh start)
    (run : Reach (Guarded AllCarried (Takes (step nodes cmds))) start past c) :
    ∀ p ∈ c.finished, Reflects p.1 (c.data.targetLog p.2) := by
  have sound : Sound cmds c := by
    refine reachInvariant (freshSound fresh) ?_ run
    rintro c event next sound ⟨carried,taken⟩
    cases event with
    | owner event => exact soundOwner sound carried taken
    | target event => exact soundTarget sound taken
    | page slot pipeline offset req replace => exact soundPage sound taken
    | deliver env client => exact soundDeliver sound taken
  exact fun p done => (sound.safe p (.inl done)).reflects

section pageBeforeWrite
open CommandTable

def setCommand : DataCommands Bytes where
  writes := fun argv =>
    match argv with
    | word :: key :: _ => if strcasecmpEqual word textSet then [key] else []
    | _ => []
  result := fun argv _ _ => argv[2]?

def emptyEnds : Copy Bytes :=
  ⟨ClusterState.initial 1 1,ClusterState.initial 1 2,⟨⟨⟨.empty,.nil⟩,.empty⟩,fun _ => [],fun _ => []⟩,[],[],0,[],[],[]⟩

theorem emptyFresh : Fresh emptyEnds := ⟨fun _ => rfl,rfl,rfl,rfl,rfl,rfl,fun _ => rfl,fun _ => rfl⟩

def copyBegun : List Event :=
  [.target (.hotgroup .asStored textAdd (keyHashSlot letterK)),.owner
    (.hotgroup .asStored textAdd (keyHashSlot letterK)),
    .owner (.packet (clusterBroadcastOwnAsHotInstance 2 (keyHashSlot letterK) 1)),
    .target (.packet (clusterBroadcastOwnAsHotInstance 1 (keyHashSlot letterK) 1)),
    .owner (.command (calm (clock 0)) .fresh [textSet,letterK,letterA]),.owner (.setslot false (keyHashSlot letterK))]

def copyPage : Event := .page (keyHashSlot letterK) 10 0 ⟨true,none,fun _ => .answered,true⟩ true
def writeDuring : Event := .owner (.command (calm (clock 1)) .fresh [textSet,letterK,letterB])

def copyEnded : List Event :=
  [.owner (.setslot true (keyHashSlot letterK)),.owner (.command (calm (clock 2)) .fresh [textGet,letterK])]

def checkCarried (c : Copy Bytes) : Event → Bool
  | .owner event => c.pending.all fun p => !c.finishes event (keyHashSlot p.2)
  | _ => true

theorem checkCarriedSound (c : Copy Bytes) (event : Event) (h : checkCarried c event = true) : AllCarried c event := by
  cases event with
  | owner event => simpa [checkCarried,AllCarried] using h
  | _ => trivial

theorem copyCarriedShown : ∃ past c, Reach (Guarded AllCarried (Takes (step [1,2] setCommand))) emptyEnds past c ∧
    c.finished = [(6,letterK)] ∧ ∀ p ∈ c.finished, Reflects p.1 (c.data.targetLog p.2) := by
  have played : (replay (fun c event => if checkCarried c event then step [1,2] setCommand c event else none) emptyEnds
      (copyBegun ++ [writeDuring,copyPage] ++ copyEnded)).any (fun c => c.finished = [(6,letterK)]) = true := by
    decide +kernel
  obtain ⟨c,run,done⟩ := replayShown checkCarriedSound played
  exact ⟨_,c,run,of_decide_eq_true done,copyCarried emptyFresh run⟩

/-- A write after the page of its key is in no cache and on no wire, and the target keeps the old value. -/
theorem pagedWriteLost : ∃ past c, Reach (Takes (step [1,2] setCommand)) emptyEnds past c ∧ c.wire = [] ∧
    c.finished = [(7,letterK)] ∧ c.data.ends.target.find letterK = some (letterK,letterA,[4]) ∧
    ¬ ∀ p ∈ c.finished, Reflects p.1 (c.data.targetLog p.2) := by
  have played : (replay (step [1,2] setCommand) emptyEnds (copyBegun ++ [copyPage,writeDuring] ++ copyEnded)).any
      (fun c => c.wire.isEmpty && c.finished = [(7,letterK)] &&
        c.data.ends.target.find letterK = some (letterK,letterA,[4])) = true := by
    decide +kernel
  obtain ⟨c,done,seen⟩ := replaySeen played
  simp only [Bool.and_eq_true,decide_eq_true_eq,List.isEmpty_iff] at seen
  obtain ⟨⟨wire,finished⟩,value⟩ := seen
  refine ⟨_,c,replayReach done,wire,finished,value,fun reflected => ?_⟩
  obtain ⟨before,after,log,_⟩ := reflected (7,letterK) (by simp [finished])
  have held : (7 : Nat) ∈ c.data.targetLog letterK := by simp [log]
  simp [Sides.targetLog,value,logOf] at held

end pageBeforeWrite
end HpuCache.CopyCarried
