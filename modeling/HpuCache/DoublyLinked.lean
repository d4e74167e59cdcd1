import Mathlib.Data.List.Basic
import Mathlib.Data.List.Induction
import Mathlib.Data.List.Nodup

/-! Doubly linked lists given by two link functions. A chain says what both links of
every cell are, so that taking a cell out or putting one in front is a statement
about the few links that change. -/
namespace HpuCache.DoublyLinked

variable {π : Type} {next prev next' prev' : π → Option π}

/-- The cells in order; `before` and `after` are what the outer links show. -/
def Chain (next prev : π → Option π) : Option π → List π → Option π → Prop
  | _, [], _ => True
  | before, p :: rest, after =>
    prev p = before ∧ next p = rest.head?.or after ∧ Chain next prev (some p) rest after

theorem chainAppend {before after : Option π} {xs ys : List π} :
    Chain next prev before (xs ++ ys) after ↔
      Chain next prev before xs (ys.head?.or after) ∧ Chain next prev (xs.getLast?.or before) ys after := by
  induction xs generalizing before with
  | nil => simp [Chain]
  | cons x rest ih =>
    have first : (rest ++ ys).head?.or after = rest.head?.or (ys.head?.or after) := by cases rest <;> rfl
    have last : (x :: rest).getLast?.or before = rest.getLast?.or (some x) := by
      cases rest with
      | nil => rfl
      | cons y more => simp [List.getLast?_cons]
    simp only [List.cons_append,Chain,ih,first,last,and_assoc]

theorem chainFrame {before after : Option π} {xs : List π} (chain : Chain next prev before xs after)
    (links : ∀ p ∈ xs, next' p = next p ∧ prev' p = prev p) : Chain next' prev' before xs after := by
  induction xs generalizing before with
  | nil => trivial
  | cons x rest ih =>
    obtain ⟨own,follow,tail⟩ := chain
    have here := links x List.mem_cons_self
    exact ⟨here.2.trans own,here.1.trans follow,ih tail (fun p member => links p (List.mem_cons_of_mem _ member))⟩

/-- The cells met by following one link function from a start, up to a number of steps. -/
def follow (link : π → Option π) : Nat → Option π → List π
  | _, none => []
  | 0, some _ => []
  | n + 1, some p => p :: follow link n (link p)

theorem followNext {before : Option π} {xs : List π} (chain : Chain next prev before xs none) {n : Nat}
    (enough : xs.length ≤ n) : follow next n xs.head? = xs := by
  induction xs generalizing before n with
  | nil => cases n <;> rfl
  | cons x rest ih =>
    obtain ⟨_,follows,tail⟩ := chain
    cases n with
    | zero => simp at enough
    | succ n =>
      simp only [List.length_cons,Nat.succ_le_succ_iff] at enough
      rw [List.head?_cons,follow,follows,Option.or_none,ih tail enough]

theorem followPrev {after : Option π} {xs : List π} (chain : Chain next prev none xs after) {n : Nat}
    (enough : xs.length ≤ n) : follow prev n xs.getLast? = xs.reverse := by
  induction xs using List.reverseRecOn generalizing after n with
  | nil => cases n <;> rfl
  | append_singleton front x ih =>
    obtain ⟨chainFront,own,_⟩ := chainAppend.mp chain
    cases n with
    | zero => simp at enough
    | succ n =>
      simp only [List.length_append,List.length_singleton,Nat.succ_le_succ_iff] at enough
      rw [List.getLast?_concat,follow,own,Option.or_none,ih chainFront enough,List.reverse_concat]

variable [DecidableEq π]

theorem chainBefore {before other after : Option π} {xs : List π} (distinct : xs.Nodup)
    (chain : Chain next prev before xs after)
    (links : ∀ p ∈ xs, next' p = next p ∧ prev' p = if some p = xs.head? then other else prev p) :
    Chain next' prev' other xs after := by
  cases xs with
  | nil => trivial
  | cons x rest =>
    obtain ⟨_,follow,tail⟩ := chain
    obtain ⟨fresh,_⟩ := List.nodup_cons.mp distinct
    have here := links x List.mem_cons_self
    refine ⟨by simpa using here.2,here.1.trans follow,chainFrame tail (fun p member => ?_)⟩
    have apart : ¬ some p = (x :: rest).head? := fun same => fresh (Option.some.inj same ▸ member)
    have there := links p (List.mem_cons_of_mem _ member)
    rw [if_neg apart] at there
    exact there

theorem chainAfter {before after other : Option π} {xs : List π} (distinct : xs.Nodup)
    (chain : Chain next prev before xs after)
    (links : ∀ p ∈ xs, prev' p = prev p ∧ next' p = if some p = xs.getLast? then other else next p) :
    Chain next' prev' before xs other := by
  induction xs generalizing before with
  | nil => trivial
  | cons x rest ih =>
    obtain ⟨own,follow,tail⟩ := chain
    obtain ⟨fresh,distinct⟩ := List.nodup_cons.mp distinct
    have here := links x List.mem_cons_self
    refine ⟨here.1.trans own,?_,ih distinct tail (fun p member => ?_)⟩
    · cases rest with
      | nil => simpa using here.2
      | cons y more =>
        have apart : ¬ some x = (x :: y :: more).getLast? := by
          intro same
          rw [List.getLast?_cons_cons] at same
          exact fresh (List.mem_of_getLast? same.symm)
        rw [here.2,if_neg apart,follow]
        rfl
    · have there := links p (List.mem_cons_of_mem _ member)
      cases rest with
      | nil => contradiction
      | cons y more => rwa [List.getLast?_cons_cons] at there

theorem chainUnlink {front back : List π} {p : π} (distinct : (front ++ p :: back).Nodup)
    (chain : Chain next prev none (front ++ p :: back) none)
    (nexts : ∀ q ∈ front ++ back, next' q = if some q = front.getLast? then back.head? else next q)
    (prevs : ∀ q ∈ front ++ back, prev' q = if some q = back.head? then front.getLast? else prev q) :
    Chain next' prev' none (front ++ back) none := by
  obtain ⟨left,right,apart⟩ := List.nodup_append.mp distinct
  obtain ⟨fresh,right⟩ := List.nodup_cons.mp right
  obtain ⟨chainFront,_,_,chainBack⟩ := chainAppend.mp chain
  have away : ∀ q ∈ front, ∀ r ∈ back, q ≠ r := fun q inside r member =>
      apart q inside r (List.mem_cons_of_mem _ member)
  refine chainAppend.mpr ⟨?_,?_⟩
  · rw [Option.or_none]
    refine chainAfter left chainFront (fun q member => ⟨?_,nexts q (List.mem_append_left _ member)⟩)
    rw [prevs q (List.mem_append_left _ member),if_neg]
    exact fun same => away q member q (List.mem_of_head? same.symm) rfl
  · rw [Option.or_none]
    refine chainBefore right chainBack (fun q member => ⟨?_,prevs q (List.mem_append_right _ member)⟩)
    rw [nexts q (List.mem_append_right _ member),if_neg]
    exact fun same => away q (List.mem_of_getLast? same.symm) q member rfl

theorem chainPush {xs : List π} {p : π} (distinct : xs.Nodup)
    (chain : Chain next prev none xs none) (own : prev' p = none) (follow : next' p = xs.head?)
    (links : ∀ q ∈ xs, next' q = next q ∧ prev' q = if some q = xs.head? then some p else prev q) :
    Chain next' prev' none (p :: xs) none :=
  ⟨own,by rw [follow,Option.or_none],chainBefore distinct chain links⟩

end HpuCache.DoublyLinked
