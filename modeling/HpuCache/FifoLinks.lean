import Mathlib.Logic.Function.Basic

/-! First-in first-out links between the nodes of a network. A broadcast puts a
message on a set of outgoing links; a delivery takes the oldest message of one. -/
namespace HpuCache.FifoLinks

variable {ν α : Type}

abbrev Links (ν α : Type) := ν → ν → List α

def empty : Links ν α := fun _ _ => []

def Quiet (links : Links ν α) : Prop := ∀ a b, links a b = []

@[simp] theorem emptyAt (a b : ν) : (empty : Links ν α) a b = [] := rfl

variable [DecidableEq ν]

/-- Every listed node is sent the messages that `sends` gives it, after those already queued. -/
def post (links : Links ν α) (source : ν) (sends : ν → List α) : Links ν α :=
  fun a b => if a = source then links a b ++ sends b else links a b

def withdraw (links : Links ν α) (source target : ν) (rest : List α) : Links ν α :=
  fun a b => if a = source ∧ b = target then rest else links a b

@[simp] theorem postSame (links : Links ν α) (source b : ν) (sends : ν → List α) :
    post links source sends source b = links source b ++ sends b := if_pos rfl

theorem postOther (links : Links ν α) {source a : ν} (b : ν) (sends : ν → List α)
    (other : a ≠ source) : post links source sends a b = links a b := if_neg other

@[simp] theorem withdrawSame (links : Links ν α) (source target : ν) (rest : List α) :
    withdraw links source target rest source target = rest := if_pos ⟨rfl,rfl⟩

theorem withdrawOther (links : Links ν α) {source target a b : ν} (rest : List α)
    (other : ¬ (a = source ∧ b = target)) :
    withdraw links source target rest a b = links a b := if_neg other

theorem memPost {links : Links ν α} {source a b : ν} {sends : ν → List α} {message : α} :
    message ∈ post links source sends a b ↔
      message ∈ links a b ∨ (a = source ∧ message ∈ sends b) := by
  by_cases same : a = source
  · subst a; simp
  · simp [postOther links b sends same,same]

theorem postNone (links : Links ν α) (source : ν) {sends : ν → List α} (none : ∀ b, sends b = []) :
    post links source sends = links := by
  funext a b
  simp [post,none b]

theorem postTwice (links : Links ν α) (source : ν) (first second : ν → List α) :
    post (post links source first) source second = post links source (fun b => first b ++ second b) := by
  funext a b
  by_cases same : a = source
  · simp [post,same]
  · simp [post,same]

theorem memWithdraw {links : Links ν α} {source target a b : ν} {head message : α} {rest : List α}
    (queue : links source target = head :: rest)
    (member : message ∈ withdraw links source target rest a b) : message ∈ links a b := by
  by_cases same : a = source ∧ b = target
  · obtain ⟨rfl,rfl⟩ := same
    rw [withdrawSame] at member
    rw [queue]
    exact List.mem_cons_of_mem _ member
  · rwa [withdrawOther links rest same] at member

end HpuCache.FifoLinks
