import HpuCache.SlotInvariant
import HpuCache.WriteCommands

/-! ADDSLOTS and DELSLOTS with their arguments as text. The first loop marks the slots and may
refuse; the second one changes what is marked, so a refused command has changed nothing. -/
namespace HpuCache.SlotBatch
open ByteText FaultRun KeySlot NodeTable SlotTable SlotCommands SlotInvariant WriteCommands

def getSlotOrReply (text : Bytes) : Option Slot :=
  match string2ll text with
  | none => none
  | some slot => if h : 0 ≤ slot ∧ slot < 16384 then some ⟨slot.toNat,slotBelow h⟩ else none

def textDelslots : Bytes := [100,101,108,115,108,111,116,115]

/-- The last branch of the command, with the words of the request as C strings. -/
def addReplySubcommandSyntaxError (command subcommand : Bytes) : Reply :=
  .error [.text "Unknown subcommand or wrong number of arguments for '",.word (cstr subcommand),.text "'. Try ",
    .word ((cstr command).map toUpper),.text " HELP."]

def deletes (subcommand : Bytes) : Bool := strcasecmpEqual subcommand textDelslots

/-- For the two subcommands; the texts are those behind the subcommand, and the branch asks for one at least. -/
def addslotsCommand (s : ClusterState) (command subcommand : Bytes) (texts : List Bytes) : Run (ClusterState × Reply) :=
  if texts = [] then .ok (s,addReplySubcommandSyntaxError command subcommand)
  else addslots s (deletes subcommand) (texts.map getSlotOrReply)

/-- Some argument is no slot, or a slot the command cannot take, or one that came before. -/
def Refused (s : ClusterState) (del : Bool) (texts : List Bytes) : Prop :=
  ∃ front text back, texts = front ++ text :: back ∧
    ∀ slot, getSlotOrReply text = some slot →
      (s.slots slot).isSome = !del ∨ ∃ earlier ∈ front, getSlotOrReply earlier = some slot

/-- Exactly the slots of a set have the new owner and no importing marker. -/
structure Applied (s : ClusterState) (del : Bool) (listed : Slot → Prop) (t : ClusterState) : Prop where
  rest : t = { s with slots := t.slots, importingSlotsFrom := t.importingSlotsFrom, heap := t.heap }
  owner : ∀ j, listed j → t.slots j = if del then none else some s.myself
  owners : ∀ j, ¬ listed j → t.slots j = s.slots j
  marker : ∀ j, listed j → t.importingSlotsFrom j = none
  markers : ∀ j, ¬ listed j → t.importingSlotsFrom j = s.importingSlotsFrom j
  -- The records but for their bitmaps and counters, and these follow the owners.
  nodes : SameNodes s t
  table : Agreed t

section check
variable {s : ClusterState} {del : Bool}

/-- The refusal of the first loop, seen from the marks it has made. -/
def RefusedFrom (s : ClusterState) (del : Bool) (marks : Slot → Nat) (args : List (Option Slot)) : Prop :=
  ∃ front arg back, args = front ++ arg :: back ∧
    ∀ slot, arg = some slot → (s.slots slot).isSome = !del ∨ marks slot = 1 ∨ some slot ∈ front

theorem refusedHere {marks : Slot → Nat} {arg : Option Slot} {rest : List (Option Slot)}
    (bad : ∀ slot, arg = some slot → (s.slots slot).isSome = !del ∨ marks slot = 1) :
    RefusedFrom s del marks (arg :: rest) :=
  ⟨[],arg,rest,rfl,fun slot own => (bad slot own).imp_right .inl⟩

theorem refusedLater {marks : Slot → Nat} {slot : Slot} {rest : List (Option Slot)}
    (good : ¬ ((s.slots slot).isSome = !del)) (new : marks slot = 0) :
    RefusedFrom s del marks (some slot :: rest) ↔ RefusedFrom s del (Function.update marks slot 1) rest := by
  constructor
  · rintro ⟨front,arg,back,shape,bad⟩
    cases front with
    | nil =>
      obtain ⟨rfl,rfl⟩ := List.cons.inj shape
      rcases bad slot rfl with taken | marked | member
      · exact absurd taken good
      · omega
      · simp at member
    | cons head front =>
      obtain ⟨rfl,rfl⟩ := List.cons.inj shape
      refine ⟨front,arg,back,rfl,fun other own => (bad other own).imp_right fun seen => ?_⟩
      by_cases same : other = slot
      · exact .inl (by rw [same,Function.update_self])
      · rw [Function.update_of_ne same]
        exact seen.imp_right fun member => (List.mem_cons.mp member).resolve_left fun h => same (Option.some.inj h)
  · rintro ⟨front,arg,back,rfl,bad⟩
    refine ⟨some slot :: front,arg,back,rfl,fun other own => (bad other own).imp_right fun seen => ?_⟩
    by_cases same : other = slot
    · exact .inr (by rw [same]; exact List.mem_cons_self)
    · rw [Function.update_of_ne same] at seen
      exact seen.imp_right (List.mem_cons_of_mem _)

/-- What the first loop says: a refusal with one error, or the multiplicities of the arguments. -/
theorem checkSpec {marks : Slot → Nat} (small : ∀ j, marks j ≤ 1) (args : List (Option Slot)) :
    (∃ parts, checkSlots s del marks args = .error (.error parts) ∧ RefusedFrom s del marks args) ∨
    ∃ after, checkSlots s del marks args = .ok after ∧ ¬ RefusedFrom s del marks args ∧
      ∀ j, after j ≠ 0 ↔ marks j ≠ 0 ∨ some j ∈ args := by
  induction args generalizing marks with
  | nil => exact .inr ⟨marks,rfl,by simp [RefusedFrom],by simp⟩
  | cons arg rest ih =>
    cases arg with
    | none => exact .inl ⟨_,rfl,refusedHere nofun⟩
    | some slot =>
      rw [checkSlots]
      split
      · rename_i free
        exact .inl ⟨_,rfl,refusedHere fun other own => .inl (by cases own; simp [free.1,free.2])⟩
      split
      · rename_i busy
        refine .inl ⟨_,rfl,refusedHere fun other own => .inl ?_⟩
        cases own
        have owned : (s.slots slot).isSome = true := Option.isSome_iff_ne_none.mpr busy.2
        rw [owned,busy.1]
      split
      · rename_i twice
        exact .inl ⟨_,rfl,refusedHere fun other own => .inr (by cases own; exact twice)⟩
      · rename_i notFree notBusy once
        have new : marks slot = 0 := by have := small slot; omega
        have good : ¬ ((s.slots slot).isSome = !del) := by
          cases del <;> cases owner : s.slots slot <;> simp_all
        have small' : ∀ j, Function.update marks slot 1 j ≤ 1 := by
          intro j
          by_cases same : j = slot
          · rw [same,Function.update_self]
          · rw [Function.update_of_ne same]
            exact small j
        rw [new,refusedLater good new]
        refine (ih small').imp_right ?_
        rintro ⟨after,done,fine,counts⟩
        refine ⟨after,done,fine,fun j => ?_⟩
        rw [counts j,List.mem_cons]
        by_cases same : j = slot
        · simp [same]
        · simp [same]

theorem notRefused {args : List (Option Slot)} (fine : ¬ RefusedFrom s del (fun _ => 0) args) {j : Slot}
    (member : some j ∈ args) : (s.slots j).isSome = del := by
  obtain ⟨front,back,rfl⟩ := List.append_of_mem member
  have other : ¬ ((s.slots j).isSome = !del) := by
    refine fun taken => fine ⟨front,some j,back,rfl,fun slot own => ?_⟩
    cases own
    exact .inl taken
  exact Bool.not_eq_not.mp other

theorem refusedTexts (texts : List Bytes) :
    RefusedFrom s del (fun _ => 0) (texts.map getSlotOrReply) ↔ Refused s del texts := by
  constructor
  · rintro ⟨front,arg,back,shape,bad⟩
    obtain ⟨before,tail,rfl,rfl,more⟩ := List.map_eq_append_iff.mp shape
    obtain ⟨text,after,rfl,rfl,rfl⟩ := List.map_eq_cons_iff.mp more
    refine ⟨before,text,after,rfl,fun slot own => (bad slot own).imp_right fun seen => ?_⟩
    simpa using seen
  · rintro ⟨front,text,back,rfl,bad⟩
    refine ⟨front.map getSlotOrReply,getSlotOrReply text,back.map getSlotOrReply,by simp,fun slot own => ?_⟩
    exact (bad slot own).imp_right fun seen => .inr (by simpa using seen)

end check

section apply
variable {s t u : ClusterState} {del : Bool} {listed : Slot → Prop} {j : Slot}

theorem appliedNone (table : Agreed s) : Applied s del (fun _ => False) s :=
  ⟨rfl,nofun,fun _ _ => rfl,nofun,fun _ _ => rfl,.refl s,table⟩

theorem appliedSame {other : Slot → Prop} (same : ∀ j, listed j ↔ other j) (applied : Applied s del listed t) :
    Applied s del other t := by
  obtain rfl : listed = other := funext fun j => propext (same j)
  exact applied

/-- One more slot gets its owner and loses its marker. -/
theorem appliedMore (applied : Applied s del listed t)
    (assigned : Assigned (clearImporting t j) u (Function.update t.slots j (if del then none else some s.myself))) :
    Applied s del (fun k => listed k ∨ k = j) u := by
  have shape := assigned.rest
  have imports : u.importingSlotsFrom = Function.update t.importingSlotsFrom j none := by
    rw [shape]
    rfl
  refine ⟨?_,fun k inside => ?_,fun k outside => ?_,fun k inside => ?_,fun k outside => ?_,
    applied.nodes.trans assigned.nodes,assigned.table⟩
  · rw [shape,clearImporting,applied.rest]
  · rw [assigned.slots]
    by_cases same : k = j
    · rw [same,Function.update_self]
    · rw [Function.update_of_ne same]
      exact applied.owner k (inside.resolve_right same)
  · rw [not_or] at outside
    rw [assigned.slots,Function.update_of_ne outside.2]
    exact applied.owners k outside.1
  · rw [imports]
    by_cases same : k = j
    · rw [same,Function.update_self]
    · rw [Function.update_of_ne same]
      exact applied.marker k (inside.resolve_right same)
  · rw [not_or] at outside
    rw [imports,Function.update_of_ne outside.2]
    exact applied.markers k outside.1

theorem clearedIf (t : ClusterState) (j : Slot) :
    (if (t.importingSlotsFrom j).isSome then clearImporting t j else t) = clearImporting t j := by
  cases marker : t.importingSlotsFrom j with
  | some p => rfl
  | none =>
    have same : Function.update t.importingSlotsFrom j none = t.importingSlotsFrom := by
      rw [← marker,Function.update_eq_self]
    simp [clearImporting,same]

/-- Where the slot is free for ADDSLOTS or owned for DELSLOTS, the assertion behind the change holds. -/
theorem turnEnds (table : Agreed t) (live : (t.heap t.myself).isSome) (fit : (t.slots j).isSome = del) :
    Ends (fun _ => False) (fun r => r.2 = true ∧
      Assigned (clearImporting t j) r.1 (Function.update t.slots j (if del then none else some t.myself)))
      (if del then clusterDelSlot (clearImporting t j) j
        else clusterAddSlot (clearImporting t j) (clearImporting t j).myself j) := by
  have cleared : Agreed (clearImporting t j) := ⟨table.agree,table.counted,table.owned⟩
  cases del with
  | true =>
    refine (delSlotEnds cleared j).imp fun r done => ⟨done.2.trans fit,?_⟩
    exact done.1
  | false =>
    have free : t.slots j = none := by simpa using fit
    refine (addSlotEnds cleared live j).imp fun r done => ⟨done.2.trans ?_,?_⟩
    · simp [clearImporting,free]
    · have owner := done.1
      simp only [clearImporting,free,Option.getD_none] at owner
      exact owner

theorem applyEnds {marks : Slot → Nat} (table : Agreed s) (live : (s.heap s.myself).isSome)
    (fit : ∀ j, marks j ≠ 0 → (s.slots j).isSome = del) :
    Ends (fun _ => False) (Applied s del fun j => marks j ≠ 0) (applySlots del marks s) := by
  have start : Applied s del (fun j => False ∧ marks j ≠ 0) s := appliedSame (by simp) (appliedNone table)
  rw [applySlots]
  refine (@sweepEnds _ _ (fun _ => False) _ _ (fun done t => Applied s del (fun j => done j ∧ marks j ≠ 0) t)
    (fun done t j undone applied => ?_) s start).imp fun t => appliedSame (by simp)
  have me : t.myself = s.myself := by rw [applied.rest]
  split
  · rename_i marked
    have still : t.slots j = s.slots j := applied.owners j fun inside => undone inside.1
    have liveNow : (t.heap t.myself).isSome := by rw [me,applied.nodes.live]; exact live
    dsimp only
    rw [clearedIf]
    refine (turnEnds applied.table liveNow (still ▸ fit j marked)).bind fun r done => ?_
    rw [done.1,if_pos rfl]
    rw [me] at done
    refine appliedSame (fun k => ?_) (appliedMore applied done.2)
    by_cases same : k = j
    · simp [same,marked]
    · simp [same]
  · rename_i unmarked
    refine appliedSame (fun k => ?_) applied
    by_cases same : k = j
    · simp [same,unmarked]
    · simp [same]

end apply

/-- With one slot or more. -/
theorem listedAllOrNothing {s : ClusterState} (table : Agreed s) (live : (s.heap s.myself).isSome) (del : Bool)
    (texts : List Bytes) :
    ∃ r, addslots s del (texts.map getSlotOrReply) = .ok r ∧
      (r.2 = .ok ∧ Applied s del (fun j => ∃ text ∈ texts, getSlotOrReply text = some j) r.1 ∨
        (∃ parts, r.2 = .error parts) ∧ r.1 = s) ∧
      (r.2 ≠ .ok ↔ Refused s del texts) := by
  have small : ∀ _ : Slot, 0 ≤ 1 := fun _ => Nat.zero_le 1
  rw [addslots,← refusedTexts]
  rcases @checkSpec s del _ small (texts.map getSlotOrReply) with
    ⟨parts,failed,bad⟩ | ⟨marks,passed,fine,counts⟩
  · rw [failed]
    exact ⟨_,rfl,.inr ⟨⟨parts,rfl⟩,rfl⟩,iff_of_true (by simp) bad⟩
  · have marked : ∀ j, marks j ≠ 0 ↔ ∃ text ∈ texts, getSlotOrReply text = some j := fun j => by simp [counts j]
    have fit : ∀ j, marks j ≠ 0 → (s.slots j).isSome = del := fun j nonzero =>
      notRefused fine (List.mem_map.mpr ((marked j).mp nonzero))
    obtain ⟨t,done,applied⟩ := endsTotal.mp (applyEnds table live fit)
    rw [passed]
    refine ⟨(t,.ok),?_,.inl ⟨rfl,appliedSame marked applied⟩,iff_of_false (fun other => other rfl) fine⟩
    simp [done,bind,Except.bind]

/-- All of the listed slots or none: the command changes exactly them and says OK, or it says one
error and the state is the one before; which of both is decided by the arguments and the owners. -/
theorem slotsAllOrNothing {s : ClusterState} (table : Agreed s) (live : (s.heap s.myself).isSome)
    (command subcommand : Bytes) (texts : List Bytes) :
    ∃ r, addslotsCommand s command subcommand texts = .ok r ∧
      (r.2 = .ok ∧ Applied s (deletes subcommand) (fun j => ∃ text ∈ texts, getSlotOrReply text = some j) r.1 ∨
        (∃ parts, r.2 = .error parts) ∧ r.1 = s) ∧
      (r.2 ≠ .ok ↔ texts = [] ∨ Refused s (deletes subcommand) texts) := by
  rw [addslotsCommand]
  split
  · rename_i none
    exact ⟨_,rfl,.inr ⟨⟨_,rfl⟩,rfl⟩,iff_of_true nofun (.inl none)⟩
  · rename_i given
    obtain ⟨r,done,ends,errs⟩ := listedAllOrNothing table live (deletes subcommand) texts
    exact ⟨r,done,ends,errs.trans (or_iff_right given).symm⟩

def textCluster : Bytes := [99,108,117,115,116,101,114]
def textAddslots : Bytes := [97,100,100,115,108,111,116,115]

/-- ADDSLOTS with no slot is refused, and none of its arguments is bad. -/
theorem noSlotRefused : ∃ r, addslotsCommand (clusterInit 0 [97]) textCluster textAddslots [] = .ok r ∧ r.2 ≠ .ok ∧
    ¬ Refused (clusterInit 0 [97]) (deletes textAddslots) [] := by
  refine ⟨_,rfl,nofun,?_⟩
  rintro ⟨front,text,back,shape,_⟩
  cases front <;> contradiction

def zeroAndSeven : List Bytes := [[48],[55]]

theorem zeroAndSevenSlots : zeroAndSeven.map getSlotOrReply = [some 0,some 7] := by decide +kernel

theorem zeroAndSevenFine : ¬ Refused (clusterInit 0 [97]) false zeroAndSeven := by
  have passed : checkSlots (clusterInit 0 [97]) false (fun _ => 0) (zeroAndSeven.map getSlotOrReply) =
      .ok (Function.update (Function.update (fun _ => 0) 0 1) 7 1) := by
    simp [zeroAndSevenSlots,checkSlots,clusterInit]
  have small : ∀ _ : Slot, 0 ≤ 1 := fun _ => Nat.zero_le 1
  rw [← refusedTexts]
  rcases @checkSpec (clusterInit 0 [97]) false _ small (zeroAndSeven.map getSlotOrReply) with
    ⟨_,failed,_⟩ | ⟨_,_,fine,_⟩
  · cases passed.symm.trans failed
  · exact fine

/-- A new node takes two slots. -/
theorem slotsAllOrNothingShown : ∃ r, addslotsCommand (clusterInit 0 [97]) textCluster textAddslots zeroAndSeven = .ok r ∧
    r.2 = .ok ∧ r.1.slots 0 = some 0 ∧ r.1.slots 7 = some 0 ∧ r.1.slots 8 = none := by
  have live : ((clusterInit 0 [97]).heap (clusterInit 0 [97]).myself).isSome := by simp [clusterInit]
  obtain ⟨r,done,ends,errs⟩ := slotsAllOrNothing (initSound 0 [97]).1 live textCluster textAddslots zeroAndSeven
  have adds : deletes textAddslots = false := by decide
  rw [adds] at ends errs
  have well : r.2 = .ok := not_not.mp fun other => (errs.mp other).elim (List.cons_ne_nil _ _) zeroAndSevenFine
  rcases ends with ⟨_,applied⟩ | ⟨⟨parts,failed⟩,_⟩
  · have listed : ∀ j : Slot, (∃ text ∈ zeroAndSeven, getSlotOrReply text = some j) ↔ j = 0 ∨ j = 7 := by
      intro j
      rw [← List.mem_map,zeroAndSevenSlots]
      simp
    exact ⟨r,done,well,applied.owner 0 ((listed 0).mpr (.inl rfl)),applied.owner 7 ((listed 7).mpr (.inr rfl)),
      applied.owners 8 fun inside => absurd ((listed 8).mp inside) (by decide)⟩
  · rw [well] at failed
    contradiction

end HpuCache.SlotBatch
