import HpuCache.PagedCopy

/-! What a copy of a slot leaves at the target. RESTORE writes entries of the source only, so an
entry that has arrived stays, and a copy that is a success has brought every key of the slot. -/
namespace HpuCache.CopiedSlot
open KeySlot KeyedDict ByteText CommandCache SlotIndex PagedCopy
open SlotMove hiding clusterManagerMigrateKeysInSlotHelp

variable {Value : Type}

/-- The source is as it was, and the entries of it that the target had are still there. -/
structure Keeps (a b : Ends Value) : Prop where
  source : b.source = a.source
  still : ∀ e ∈ a.source.store.entries, e ∈ a.target.entries → e ∈ b.target.entries

def Carried (keys : List Bytes) (ends : Ends Value) : Prop :=
  ∀ e ∈ ends.source.store.entries, e.1 ∈ keys → e ∈ ends.target.entries

theorem Keeps.refl (a : Ends Value) : Keeps a a := ⟨rfl,fun _ _ arrived => arrived⟩

theorem Keeps.trans {a b c : Ends Value} (first : Keeps a b) (second : Keeps b c) : Keeps a c :=
  ⟨second.source.trans first.source,fun e here arrived => second.still e (first.source ▸ here)
    (first.still e here arrived)⟩

theorem Keeps.carried {a b : Ends Value} {keys : List Bytes} (keeps : Keeps a b)
    (carried : Carried keys a) : Carried keys b :=
  fun e here inside => keeps.still e (keeps.source ▸ here) (carried e (keeps.source ▸ here) inside)

section requests
variable {fate : Bytes → Fate} {replace : Bool} {ends : Ends Value} {p : Progress Value} {f : Bytes × Value}
  {present : List (Bytes × Value)}

theorem silentHolds {source : Db Value} {target : Store Value} {restored : Bool} {e : Bytes × Value}
    (here : e ∈ source.store.entries) (inside : f ∈ source.store.entries) (arrived : e ∈ target.entries) :
    e ∈ (restoreSilently replace restored f target).entries := by
  by_cases same : e.1 = f.1
  · obtain rfl := Dict.entryUnique source.store here inside same
    unfold restoreSilently
    split
    · cases ok : restore replace e target with
      | none => exact arrived
      | some target' =>
        rw [restoreEntries ok]
        exact Dict.memReplace.mpr (.inl rfl)
    · exact arrived
  · exact silentKept arrived same

theorem silentKeeps {restored : Bool} (inside : f ∈ ends.source.store.entries) :
    Keeps ends { ends with target := restoreSilently replace restored f ends.target } :=
  ⟨rfl,fun _ here arrived => silentHolds here inside arrived⟩

theorem readKeeps (fate : Bytes → Fate) (replace : Bool) (inside : f ∈ p.ends.source.store.entries) :
    Keeps p.ends (readReply fate replace true p f).ends := by
  unfold readReply
  split
  · exact silentKeeps inside
  · split
    · split
      · exact .refl _
      · rename_i target ok
        refine ⟨rfl,fun e here arrived => ?_⟩
        have silent : e ∈ (restoreSilently replace true f p.ends.target).entries := silentHolds here inside arrived
        rwa [restoreSilently,if_pos rfl,ok] at silent
    · exact .refl _
    · exact silentKeeps inside

theorem readCarried (error : (readReply fate replace true p f).error = none)
    (socket : (readReply fate replace true p f).socketError = false) :
      f ∈ (readReply fate replace true p f).ends.target.entries := by
  unfold readReply at error socket ⊢
  split
  · rename_i broken
    rw [if_pos broken] at socket
    simp [broken] at socket
  rename_i whole
  rw [if_neg whole] at error socket
  split
  · rename_i answered
    simp only [answered] at error socket
    split
    · rename_i busy
      simp [busy] at error
    · rename_i target ok
      rw [restoreEntries ok]
      exact Dict.memReplace.mpr (.inl rfl)
  · rename_i refused
    simp [refused] at error
  · rename_i lost
    simp [lost] at socket

theorem foldKeeps (fate : Bytes → Fate) (replace : Bool) (inside : ∀ e ∈ present, e ∈ p.ends.source.store.entries) :
    Keeps p.ends (present.foldl (readReply fate replace true) p).ends := by
  induction present generalizing p with
  | nil => exact .refl _
  | cons e rest ih =>
    have first := readKeeps fate replace (inside e List.mem_cons_self)
    exact first.trans (ih fun f later => first.source.symm ▸ inside f (List.mem_cons_of_mem _ later))

theorem foldCarried (inside : ∀ e ∈ present, e ∈ p.ends.source.store.entries)
    (error : (present.foldl (readReply fate replace true) p).error = none)
    (socket : (present.foldl (readReply fate replace true) p).socketError = false) :
    (p.error = none ∧ p.socketError = false) ∧
      ∀ e ∈ present, e ∈ (present.foldl (readReply fate replace true) p).ends.target.entries := by
  induction present generalizing p with
  | nil => exact ⟨⟨error,socket⟩,nofun⟩
  | cons e rest ih =>
    have source := readKeepsSource fate replace p e
    have later : ∀ f ∈ rest, f ∈ (readReply fate replace true p e).ends.source.store.entries :=
      fun f member => source.symm ▸ inside f (List.mem_cons_of_mem _ member)
    obtain ⟨⟨error',socket'⟩,arrived⟩ := ih later error socket
    have before := readOk true error' socket'
    refine ⟨⟨before.1,before.2.1⟩,fun f member => ?_⟩
    rcases List.mem_cons.mp member with rfl | member
    · exact (foldKeeps fate replace later).still f (source.symm ▸ inside f List.mem_cons_self)
        (readCarried error' socket')
    · exact arrived f member

theorem firstKeeps (replace : Bool) (retried : Option (Bytes → Bool))
    (inside : ∀ e ∈ present, e ∈ ends.source.store.entries) :
    Keeps ends (firstAttempt replace retried present ends) := by
  refine ⟨firstSource _ _ _ _,fun e here arrived => ?_⟩
  cases retried with
  | none => exact arrived
  | some restored =>
    simp only [firstAttempt]
    generalize ends.target = target at arrived
    induction present generalizing target with
    | nil => exact arrived
    | cons f rest ih =>
      exact ih (fun g later => inside g (List.mem_cons_of_mem _ later)) _
        (silentHolds here (inside f List.mem_cons_self) arrived)

end requests

section pages
variable {replace : Bool} {keys : List Bytes} {ends : Ends Value}

theorem migrateKeeps (req : Request) (replace : Bool) (keys : List Bytes) (ends : Ends Value) :
    Keeps ends (migrateCommand req replace true keys ends).1 := by
  unfold migrateCommand
  dsimp only
  split
  · exact .refl _
  split
  · exact .refl _
  have first : Keeps ends (firstAttempt replace req.retried (keys.filterMap ends.source.store.find) ends) :=
    firstKeeps replace req.retried fun _ => presentInside
  have inside : ∀ e ∈ keys.filterMap ends.source.store.find,
      e ∈ (firstAttempt replace req.retried (keys.filterMap ends.source.store.find) ends).source.store.entries := by
    rw [firstSource]
    exact fun _ => presentInside
  have later := foldKeeps (p := ⟨firstAttempt replace req.retried
      (keys.filterMap ends.source.store.find) ends,none,false⟩)
    req.fate replace inside
  split <;> exact first.trans later

theorem migrateCarried {req : Request} {reply : MigrateReply}
    (answer : (migrateCommand req replace true keys ends).2 = reply)
    (fine : ∀ busy, reply ≠ .error busy) : Carried keys (migrateCommand req replace true keys ends).1 := by
  intro e member inside
  rw [copyKeepsSource] at member
  have present : e ∈ keys.filterMap ends.source.store.find :=
    List.mem_filterMap.mpr ⟨e.1,inside,Dict.findIff.mpr ⟨member,rfl⟩⟩
  unfold migrateCommand at answer ⊢
  dsimp only at answer ⊢
  split at answer
  · rename_i none
    rw [List.isEmpty_iff.mp none] at present
    contradiction
  rename_i some_
  rw [if_neg some_]
  split at answer
  · exact absurd answer.symm (fine false)
  rename_i connected
  rw [if_neg connected]
  split at answer
  · exact absurd answer.symm (fine _)
  rename_i quiet
  dsimp only
  cases socket : ((keys.filterMap ends.source.store.find).foldl (readReply req.fate replace true)
      ⟨firstAttempt replace req.retried (keys.filterMap ends.source.store.find) ends,none,false⟩).socketError with
  | true =>
    rw [if_pos socket] at answer
    exact absurd answer.symm (fine false)
  | false =>
    refine (foldCarried ?_ quiet socket).2 e present
    rw [firstSource]
    exact fun _ => presentInside

/-- What a page with COPY may do, and what it has done when it is a success and its connection is still up. -/
structure CopySpec (keys : List Bytes) (ends : Ends Value) (r : PageResult Value) : Prop where
  keeps : Keeps ends r.ends
  done : r.success = true → r.link = true → Carried keys r.ends

theorem retryCopySpec (o : Options Value) (busy : Bool) (round : Round) (keys : List Bytes) (ends : Ends Value) :
    CopySpec keys ends (retryPage o true busy round keys ends) := by
  have keeps := migrateKeeps round.second busy keys ends
  unfold retryPage clusterManagerMigrateKeysInReply
  split
  · exact ⟨.refl _,nofun⟩
  · dsimp only
    split
    · exact ⟨keeps,nofun⟩
    · exact ⟨keeps,nofun⟩
    · rename_i reply fine answer
      split at answer <;> try contradiction
      exact ⟨keeps,fun _ _ => migrateCarried (Option.some.inj answer) fine⟩

theorem copySpec (o : Options Value) (round : Round) (keys : List Bytes) (ends : Ends Value) :
    CopySpec keys ends (migratePage o true round keys ends) := by
  have keeps := migrateKeeps round.first false keys ends
  unfold migratePage
  dsimp only [clusterManagerMigrateKeysInReply]
  split
  · exact ⟨keeps,nofun⟩
  · split
    · obtain ⟨later,done⟩ := retryCopySpec o _ round keys (migrateCommand round.first false true keys ends).1
      exact ⟨keeps.trans later,done⟩
    · exact ⟨keeps,nofun⟩
  · rename_i reply fine answer
    split at answer <;> try contradiction
    exact ⟨keeps,fun _ _ => migrateCarried (Option.some.inj answer) fine⟩

end pages

section rounds
variable {o : Options Value} {slot : Slot} {pipeline offset : Nat} {link : Bool}
    {rounds : List Round} {ends : Ends Value}

inductive CopyWay (o : Options Value) (slot : Slot) (pipeline offset : Nat) (link : Bool)
    (round : Round) (rest : List Round)
    (ends : Ends Value) (m : Managed Value) : Prop
  | failed (same : m.ends = ends) (ended : m.ending = .returned false)
  | fault (same : m.ends = ends) (ended : m.ending = .fault)
  | last (listed : getkeysinslotCommand slot pipeline offset ends.source = some []) (same : m.ends = ends)
      (ended : m.ending = .returned true)
  | stopped (spec : Keeps ends m.ends) (ended : m.ending = .returned false)
  | next (keys : List Bytes) (r : PageResult Value) (filled : keys ≠ []) (fits : offset + pipeline ≤ intMax)
      (listed : getkeysinslotCommand slot pipeline offset ends.source = some keys) (spec : CopySpec keys ends r)
      (success : r.success = true)
      (later : m.ends = (clusterManagerMigrateKeysInSlotHelp o slot pipeline true rest
        (offset + pipeline) r.link r.ends).ends)
      (ended : m.ending = (clusterManagerMigrateKeysInSlotHelp o slot pipeline true rest
        (offset + pipeline) r.link r.ends).ending)

theorem copyWay (o : Options Value) (slot : Slot) (pipeline offset : Nat) (link : Bool)
    (round : Round) (rest : List Round)
    (ends : Ends Value) : CopyWay o slot pipeline offset link round rest ends
      (clusterManagerMigrateKeysInSlotHelp o slot pipeline true (round :: rest) offset link ends) := by
  unfold clusterManagerMigrateKeysInSlotHelp
  split
  · exact .failed rfl rfl
  cases listed : getkeysinslotCommand slot pipeline offset ends.source with
  | none => exact .fault rfl rfl
  | some keys =>
    dsimp only
    split
    · exact .fault rfl rfl
    rename_i fits
    split
    · rename_i none
      exact .last (List.isEmpty_iff.mp none ▸ listed) rfl rfl
    rename_i filled
    have spec := copySpec o round keys ends
    split
    · rename_i success
      have some_ : keys ≠ [] := fun none => filled (List.isEmpty_iff.mpr none)
      exact .next keys _ some_ (Nat.not_lt.mp fits) listed spec success rfl rfl
    · exact .stopped spec.keeps rfl

theorem managedKeeps (o : Options Value) (slot : Slot) (pipeline offset : Nat) (link : Bool) (rounds : List Round)
    (ends : Ends Value) :
    Keeps ends (clusterManagerMigrateKeysInSlotHelp o slot pipeline true rounds offset link ends).ends := by
  induction rounds generalizing offset link ends with
  | nil => exact .refl _
  | cons round rest ih =>
    cases copyWay o slot pipeline offset link round rest ends with
    | failed same => rw [same]; exact .refl _
    | fault same => rw [same]; exact .refl _
    | last _ same => rw [same]; exact .refl _
    | stopped keeps => exact keeps
    | next keys r _ _ _ spec _ later =>
      rw [later]
      exact spec.keeps.trans (ih ..)

theorem linkUp (ended : (clusterManagerMigrateKeysInSlotHelp o slot pipeline true rounds offset link ends).ending = .returned true) :
    link = true := by
  cases rounds with
  | nil => contradiction
  | cons round rest =>
    cases link with
    | true => rfl
    | false => cases Ending.returned.inj ended

/-- A copy that is a success has carried the keys of the slot from its offset on. -/
theorem managedCarried (positive : 1 ≤ pipeline) (small : (keysOf slot ends.source).length < 2 ^ 32)
    (below : offset ≤ intMax)
    (ended : (clusterManagerMigrateKeysInSlotHelp o slot pipeline true rounds offset link ends).ending = .returned true) :
    Carried ((keysOf slot ends.source).drop offset)
      (clusterManagerMigrateKeysInSlotHelp o slot pipeline true rounds offset link ends).ends := by
  have width : intMax < 2 ^ 32 := by decide
  induction rounds generalizing offset link ends with
  | nil => contradiction
  | cons round rest ih =>
    cases copyWay o slot pipeline offset link round rest ends with
    | failed _ failed => rw [failed] at ended; cases Ending.returned.inj ended
    | fault _ fault => rw [fault] at ended; contradiction
    | stopped _ failed => rw [failed] at ended; cases Ending.returned.inj ended
    | last listed same =>
      have empty := congrArg List.length (listingExact small (by omega) listed)
      rw [List.length_nil,List.length_take] at empty
      have past : (keysOf slot ends.source).drop offset = [] := List.length_eq_zero_iff.mp (by omega)
      rw [past]
      exact fun _ _ inside => absurd inside List.not_mem_nil
    | next keys r filled fits listed spec success later ending =>
      rw [ending] at ended
      rw [later]
      have source := spec.keeps.source
      have page := listingExact small (by omega) listed
      have fewer : (keysOf slot r.ends.source).length < 2 ^ 32 := by rwa [source]
      have rest := ih fewer fits ended
      have up := linkUp ended
      intro e here inside
      rw [source] at rest
      rw [← pageJoins _ pipeline offset,List.mem_append] at inside
      rcases inside with inside | inside
      · exact (managedKeeps ..).carried (spec.done success up) e here (page ▸ inside)
      · exact rest e here inside

/-- As many rounds as the slot has keys behind the offset, and one more, are enough. -/
theorem managedEnds (below : offset ≤ intMax) (enough : (keysOf slot ends.source).length - offset < rounds.length) :
    (clusterManagerMigrateKeysInSlotHelp o slot pipeline true rounds offset link ends).ending ≠ .running := by
  have width : intMax < 2 ^ 32 := by decide
  induction rounds generalizing offset link ends with
  | nil => contradiction
  | cons round rest ih =>
    cases copyWay o slot pipeline offset link round rest ends with
    | failed _ ended => rw [ended]; nofun
    | fault _ ended => rw [ended]; nofun
    | last _ _ ended => rw [ended]; nofun
    | stopped _ ended => rw [ended]; nofun
    | next keys r filled fits listed spec _ _ ended =>
      rw [ended]
      have short := (listingShort listed).1
      have some_ := List.length_pos_iff.mpr filled
      have within : offset < (keysOf slot ends.source).length := by
        by_contra past
        have page := congrArg List.length (listingExact (by omega) (by omega) listed)
        rw [List.length_take,List.length_drop] at page
        omega
      refine ih fits ?_
      rw [spec.keeps.source]
      rw [List.length_cons] at enough
      omega

end rounds

end HpuCache.CopiedSlot
