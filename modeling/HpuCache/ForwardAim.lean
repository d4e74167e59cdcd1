import HpuCache.CommandTable
import HpuCache.ForwardService

/-! The draw of the node that a client is forwarded to. In the skewed mode the owner draws
until it meets another node, so the loop ends exactly when the group has one. -/
namespace HpuCache.ForwardAim
open KeySlot KeyedDict CommandCache ServerState ProcessCommand CommandTable

def forwards (cl : ClusterState) (c : Client) (slot : Slot) (st : SlotState) : Bool :=
  isOwner cl slot && st.isCopied && !isNoForward c slot && st.isSynced && st.relatedIns.size > 0 && st.haveCopy

def draws (f : Nat → Nat) (n : Nat) : List Nat := (List.range n).map f

def picked (related : Roster) (r : Nat) : Option NodeId := related.entries[r % related.size]?

/-- Every member keeps being drawn. -/
def Fair (related : Roster) (f : Nat → Nat) : Prop := ∀ m ∈ related.entries, ∀ k, ∃ i, k ≤ i ∧
    picked related (f i) = some m

def Returns (env : Env) (cl : ClusterState) (related : Roster) (f : Nat → Nat) : Prop :=
  ∃ n node, getForwardAim { env with draws := draws f n } cl related = some node ∧
    (node ∈ related.entries ∨ node = cl.myself)

section
variable {related : Roster} {myself : NodeId}

theorem pickedSome (filled : 0 < related.size) (r : Nat) : ∃ node, picked related r = some node := by
  rw [picked]
  have below : r % related.size < related.entries.length := Nat.mod_lt r filled
  exact ⟨_,List.getElem?_eq_getElem below⟩

theorem drawOtherSome (filled : 0 < related.size) {rs : List Nat} {r : Nat} {m : NodeId} (inside : r ∈ rs)
    (other : picked related r = some m) (away : m ≠ myself) : ∃ node, drawOther related myself rs = some node := by
  induction rs with
  | nil => simp at inside
  | cons head rest ih =>
    obtain ⟨node,first⟩ := pickedSome filled head
    rw [picked] at first
    simp only [drawOther,first]
    split
    · rename_i own
      rcases List.mem_cons.mp inside with rfl | later
      · rw [picked,first] at other
        exact absurd ((Option.some.inj other).symm.trans own) away
      · exact ih later
    · exact ⟨node,rfl⟩

theorem drawOtherNone (alone : ∀ m ∈ related.entries, m = myself) (rs : List Nat) :
    drawOther related myself rs = none := by
  induction rs with
  | nil => rfl
  | cons head rest ih =>
    simp only [drawOther]
    split
    · rfl
    · rename_i node first
      rw [if_pos (alone node (List.mem_of_getElem? first))]
      exact ih

theorem drawsCons (f : Nat → Nat) (n : Nat) : draws f (n + 1) = f 0 :: draws (fun i => f (i + 1)) n := by
  simp [draws,List.range_succ_eq_map,Function.comp_def]

theorem aimSkewed {env : Env} {cl : ClusterState} (skewed : cl.forwardTime = true) (filled : 0 < related.size)
    (f : Nat → Nat) (n : Nat) : getForwardAim { env with draws := draws f (n + 1) } cl related =
      (drawOther related cl.myself (draws (fun i => f (i + 1)) n)).map fun other =>
        if env.rand % (related.size * 2 + 1) = 0 then cl.myself else other := by
  obtain ⟨node,first⟩ := pickedSome filled (f 0)
  rw [picked] at first
  simp only [getForwardAim,drawsCons,first,bind,Option.bind,skewed,if_true]
  cases drawOther related cl.myself (draws (fun i => f (i + 1)) n) with
  | none => rfl
  | some other => exact (apply_ite some _ _ _).symm

theorem aimAlone {env : Env} {cl : ClusterState} (skewed : cl.forwardTime = true)
    (alone : ∀ m ∈ related.entries, m = cl.myself) (filled : 0 < related.size) (f : Nat → Nat) (n : Nat) :
    getForwardAim { env with draws := draws f n } cl related = none := by
  cases n with
  | zero => rfl
  | succ n => rw [aimSkewed skewed filled,drawOtherNone alone]; rfl

end

/-- The draw ends when it takes any node, or when the group has another node than this one. -/
theorem forwardAimReturns {env : Env} {cl : ClusterState} {c : Client} {slot : Slot} {st : SlotState} {f : Nat → Nat}
    (called : forwards cl c slot st = true) (fair : Fair st.relatedIns f) :
    Returns env cl st.relatedIns f ↔ cl.forwardTime = false ∨ ∃ m ∈ st.relatedIns.entries, m ≠ cl.myself := by
  have filled : 0 < st.relatedIns.size := by
    simp only [forwards,Bool.and_eq_true,decide_eq_true_eq] at called
    exact called.1.2
  constructor
  · rintro ⟨n,node,returned,_⟩
    by_contra stuck
    rw [not_or,Bool.not_eq_false] at stuck
    obtain ⟨skewed,none⟩ := stuck
    have alone : ∀ m ∈ st.relatedIns.entries, m = cl.myself := fun m inside =>
      Decidable.byContradiction fun away => none ⟨m,inside,away⟩
    rw [aimAlone skewed alone filled] at returned
    contradiction
  · intro exit
    have ends : ∃ n node, getForwardAim { env with draws := draws f n } cl st.relatedIns = some node := by
      cases mode : cl.forwardTime with
      | false =>
        obtain ⟨node,first⟩ := pickedSome filled (f 0)
        rw [picked] at first
        exact ⟨1,node,by simp [getForwardAim,drawsCons,first,mode]⟩
      | true =>
        obtain ⟨m,inside,away⟩ := exit.resolve_left (by simp [mode])
        obtain ⟨i,later,drawn⟩ := fair m inside 1
        have met : f i ∈ draws (fun j => f (j + 1)) i := by
          refine List.mem_map.mpr ⟨i - 1,List.mem_range.mpr (by omega),?_⟩
          rw [Nat.sub_add_cancel later]
        obtain ⟨other,again⟩ := drawOtherSome filled met drawn away
        exact ⟨i + 1,_,by rw [aimSkewed mode filled,again]; rfl⟩
    obtain ⟨n,node,returned⟩ := ends
    exact ⟨n,node,returned,ForwardService.getForwardAimMember returned⟩

def hotSlot (members : Roster) : SlotState :=
  { SlotState.zeroed with haveCopy := true, isCopied := true, isSynced := true, relatedIns := members }

def skewedOwner : ClusterState := { ClusterState.initial 0 0 with forwardTime := true }

def pairGroup : Roster := ⟨[0,1],by decide⟩

theorem forwardAimReturnsShown : Returns (calm (clock 0)) skewedOwner pairGroup id := by
  have fair : Fair (hotSlot pairGroup).relatedIns id := by
    intro m inside k
    have member : m = 0 ∨ m = 1 := by simpa [hotSlot,pairGroup] using inside
    rcases member with rfl | rfl
    · exact ⟨2 * k,by omega,by simp [picked,hotSlot,pairGroup,Dict.size]⟩
    · exact ⟨2 * k + 1,by omega,by simp [picked,hotSlot,pairGroup,Dict.size,Nat.add_mod]⟩
  exact (@forwardAimReturns (calm (clock 0)) skewedOwner .fresh 0 (hotSlot pairGroup) id (by decide) fair).mpr
    (.inr ⟨1,by decide,by decide⟩)

def ownGroup : Roster := ⟨[0],by decide⟩

/-- The owner is the only member of its group, and draws itself for ever. -/
theorem ownerDrawsItself : forwards skewedOwner .fresh 0 (hotSlot ownGroup) = true ∧ Fair ownGroup id ∧
    ∀ n, getForwardAim { calm (clock 0) with draws := draws id n } skewedOwner ownGroup = none := by
  refine ⟨by decide,fun m inside k => ⟨k,Nat.le_refl k,?_⟩,fun n => ?_⟩
  · obtain rfl : m = 0 := by simpa [ownGroup] using inside
    simp [picked,ownGroup,Dict.size,Nat.mod_one]
  · exact aimAlone rfl (by decide) (by decide) id n

end HpuCache.ForwardAim
