import Mathlib.Data.List.Basic
import Mathlib.Data.List.TakeWhile
import Mathlib.Data.List.Infix

/-! Reading one page of a sorted table: seek a prefix, pass over some entries, gather
some more, and stop at the first entry outside. In a table in lexicographic order
the entries with the prefix stand together, so a page is a cut of just these. -/
namespace HpuCache.PageScan

section pages
variable {β : Type} (inside : β → Bool)

/-- Passing over entries; the first one outside is passed over as well. -/
def skip : Nat → List β → List β
  | 0, rest => rest
  | _ + 1, [] => []
  | n + 1, e :: rest => if inside e then skip n rest else rest

def gather : Nat → List β → List β
  | 0, _ => []
  | _ + 1, [] => []
  | n + 1, e :: rest => if inside e then e :: gather n rest else []

theorem gatherTake (n : Nat) (entries : List β) :
    gather inside n entries = (entries.takeWhile inside).take n := by
  induction n generalizing entries with
  | zero => simp [gather]
  | succ n ih =>
    cases entries with
    | nil => rfl
    | cons e rest =>
      cases here : inside e with
      | true => simp [gather,here,ih]
      | false => simp [gather,here]

theorem skipDrop {entries : List β} (together : entries.takeWhile inside = entries.filter inside) (n : Nat) :
    (skip inside n entries).takeWhile inside = (entries.takeWhile inside).drop n := by
  induction n generalizing entries with
  | zero => rfl
  | succ n ih =>
    cases entries with
    | nil => rfl
    | cons e rest =>
      cases here : inside e with
      | true =>
        simp only [List.takeWhile_cons,List.filter_cons,here,if_true,List.cons.injEq,true_and] at together
        simp [skip,here,ih together]
      | false =>
        simp only [List.takeWhile_cons,List.filter_cons,here,Bool.false_eq_true,if_false] at together
        have none : rest.takeWhile inside = [] := by
          cases rest with
          | nil => rfl
          | cons f more =>
            have outside : inside f = false := by
              simpa using (List.filter_eq_nil_iff.mp together.symm) f List.mem_cons_self
            simp [outside]
        simp [skip,here,none]

/-- A page is the cut of the entries inside. -/
theorem pageCut {entries : List β} (together : entries.takeWhile inside = entries.filter inside)
    (based count : Nat) :
    gather inside count (skip inside based entries) = ((entries.filter inside).drop based).take count := by
  rw [gatherTake,skipDrop inside together,together]

end pages

section prefixes
variable {α : Type} [LT α]

theorem prefixBetween {p e g : List α} (above : ¬ e < p) (below : e < p ++ g) : p <+: e := by
  induction p generalizing e with
  | nil => exact List.nil_prefix
  | cons a p ih =>
    cases e with
    | nil => exact absurd (List.nil_lt_cons a p) above
    | cons b e =>
      rw [List.cons_append,List.cons_lt_cons_iff] at below
      rw [List.cons_lt_cons_iff,not_or] at above
      rcases below with less | ⟨rfl,tail⟩
      · exact absurd less above.1
      · exact (List.prefix_cons_inj b).mpr (ih (fun less => above.2 ⟨rfl,less⟩) tail)

theorem extensionNotLess [Std.Irrefl (· < · : α → α → Prop)] (p g : List α) : ¬ p ++ g < p := by
  induction p with
  | nil => exact List.not_lt_nil g
  | cons a p ih =>
    rw [List.cons_append,List.cons_lt_cons_iff]
    rintro (less | ⟨_,tail⟩)
    · exact Std.Irrefl.irrefl a less
    · exact ih tail

variable [DecidableEq α]

theorem togetherAbove {p : List α} {entries : List (List α)} (sorted : entries.Pairwise (· < ·))
    (above : ∀ e ∈ entries, ¬ e < p) :
    entries.takeWhile p.isPrefixOf = entries.filter p.isPrefixOf := by
  induction entries with
  | nil => rfl
  | cons e rest ih =>
    obtain ⟨least,sorted⟩ := List.pairwise_cons.mp sorted
    cases here : p.isPrefixOf e with
    | true =>
      rw [List.takeWhile_cons_of_pos here,List.filter_cons_of_pos here,
        ih sorted (fun f member => above f (List.mem_cons_of_mem _ member))]
    | false =>
      rw [List.takeWhile_cons_of_neg (by simp [here]),List.filter_cons_of_neg (by simp [here])]
      symm
      apply List.filter_eq_nil_iff.mpr
      intro f member later
      obtain ⟨g,rfl⟩ := List.isPrefixOf_iff_prefix.mp later
      have inside := prefixBetween (above e List.mem_cons_self) (least _ member)
      rw [← List.isPrefixOf_iff_prefix,here] at inside
      contradiction

variable [DecidableLT α]

def seek (p : List α) (entries : List (List α)) : List (List α) := entries.dropWhile (fun e => e < p)

/-- In a sorted table the entries with the prefix stand together from the seek on. -/
theorem seekTogether [Std.Irrefl (· < · : α → α → Prop)]
    [Trans (· < · : α → α → Prop) (· < · : α → α → Prop) (· < · : α → α → Prop)]
    {p : List α} {entries : List (List α)} (sorted : entries.Pairwise (· < ·)) :
    (seek p entries).takeWhile p.isPrefixOf = (seek p entries).filter p.isPrefixOf ∧
    (seek p entries).filter p.isPrefixOf = entries.filter p.isPrefixOf := by
  induction entries with
  | nil => exact ⟨rfl,rfl⟩
  | cons e rest ih =>
    by_cases less : e < p
    · have outside : p.isPrefixOf e = false := by
        cases here : p.isPrefixOf e with
        | false => rfl
        | true =>
          obtain ⟨g,rfl⟩ := List.isPrefixOf_iff_prefix.mp here
          exact absurd less (extensionNotLess p g)
      have skipped : seek p (e :: rest) = seek p rest := List.dropWhile_cons_of_pos (by simpa using less)
      rw [skipped,List.filter_cons_of_neg (by simp [outside])]
      exact ih sorted.tail
    · have whole : seek p (e :: rest) = e :: rest := List.dropWhile_cons_of_neg (by simpa using less)
      have above : ∀ f ∈ e :: rest, ¬ f < p := by
        intro f member
        rcases List.mem_cons.mp member with rfl | later
        · exact less
        · exact fun below => less (List.lt_trans (List.rel_of_pairwise_cons sorted later) below)
      rw [whole]
      exact ⟨togetherAbove sorted above,rfl⟩

end prefixes
end HpuCache.PageScan
