import Mathlib.Data.List.DropRight
import Mathlib.Data.List.TakeWhile

/-! The words of a list: the pieces between separators, the empty ones left out. They can be
taken from the front one by one. Nothing here names a program. -/
namespace HpuCache.WordSplit

variable {α : Type} {p : α → Bool} {s front back w : List α} {c : α}

def words (p : α → Bool) (s : List α) : List (List α) := (s.splitOnP p).filter fun w => !w.isEmpty

@[simp] theorem wordsNil : words p [] = [] := rfl

theorem wordsSplit (front : List α) (blank : p c = true) (back : List α) :
    words p (front ++ c :: back) = words p front ++ words p back := by
  rw [words,List.splitOnP_append_cons front back blank,List.filter_append]
  rfl

theorem wordsBlank (blank : p c = true) (s : List α) : words p (c :: s) = words p s := wordsSplit [] blank s

theorem wordsOne (clean : ∀ c ∈ w, p c = false) (filled : w ≠ []) : words p w = [w] := by
  rw [words,List.splitOnP_eq_singleton clean]
  simp [filled]

/-- The words keep every element that is no separator, in order. -/
theorem wordsFlat (s : List α) : (words p s).flatten = s.filter fun c => !p c := by
  have pieces : ((s.splitOnP p).filter fun w => !w.isEmpty).flatten = (s.splitOnP p).flatten := by
    induction s.splitOnP p with
    | nil => rfl
    | cons w rest ih => cases w <;> simp [ih]
  rw [words,pieces]
  clear pieces
  induction s with
  | nil => rfl
  | cons c rest ih =>
    obtain ⟨head,tail,shape⟩ := List.exists_cons_of_ne_nil (List.splitOnP_ne_nil p rest)
    rw [List.splitOnP_cons_eq_if_modifyHead,shape]
    rw [shape] at ih
    cases blank : p c <;> simp_all

theorem wordsMem (inside : w ∈ words p s) : w ≠ [] ∧ ∀ c ∈ w, p c = false := by
  obtain ⟨piece,filled⟩ := List.mem_filter.mp inside
  refine ⟨by simpa using filled,fun c member => ?_⟩
  have kept : c ∈ (words p s).flatten := List.mem_flatten.mpr ⟨w,inside,member⟩
  rw [wordsFlat,List.mem_filter] at kept
  simpa using kept.2

theorem wordsNone : words p s = [] ↔ ∀ c ∈ s, p c = true := by
  have flat := wordsFlat (p := p) s
  constructor
  · intro none
    rw [none,List.flatten_nil,eq_comm,List.filter_eq_nil_iff] at flat
    simpa using flat
  · intro all
    rw [List.filter_eq_nil_iff.mpr (by simpa using all),List.flatten_eq_nil_iff] at flat
    exact List.eq_nil_iff_forall_not_mem.mpr fun w inside => (wordsMem inside).1 (flat w inside)

/-- The words of what is printed with a separator before each piece but the first. -/
theorem wordsJoined {sep : α} (blank : p sep = true) (first : List α) (others : List (List α)) :
    words p (first ++ others.flatMap fun w => sep :: w) = words p first ++ others.flatMap (words p) := by
  induction others generalizing first with
  | nil => simp
  | cons w rest ih => rw [List.flatMap_cons,List.flatMap_cons,List.cons_append,wordsSplit first blank,ih]

/-- One word from the front, and what is left behind its separator. -/
def nextWord (p : α → Bool) (s : List α) : Option (List α) × List α :=
  match s.dropWhile p with
  | [] => (none,[])
  | body => (some (body.takeWhile fun c => !p c),(body.dropWhile fun c => !p c).tail)

theorem wordsTrim (p : α → Bool) (s : List α) : words p (s.dropWhile p) = words p s := by
  induction s with
  | nil => rfl
  | cons c rest ih =>
    cases blank : p c with
    | true => rw [List.dropWhile_cons_of_pos blank,ih,wordsBlank blank]
    | false => rw [List.dropWhile_cons_of_neg (by simp [blank])]

/-- Where dropping stops. -/
theorem dropStops {q : α → Bool} {s rest : List α} {c : α} (left : s.dropWhile q = c :: rest) : q c = false := by
  have stops := List.head?_dropWhile_not q s
  rwa [left] at stops

theorem nextCases (p : α → Bool) (s : List α) :
    (words p s = [] ∧ nextWord p s = (none,[])) ∨
      ∃ w rest, nextWord p s = (some w,rest) ∧ words p s = w :: words p rest := by
  rw [← wordsTrim,nextWord]
  cases body : s.dropWhile p with
  | nil => exact .inl ⟨rfl,rfl⟩
  | cons c rest =>
    refine .inr ⟨_,_,rfl,?_⟩
    have clean : ∀ d ∈ (c :: rest).takeWhile fun c => !p c, p d = false := fun d inside => by
      simpa using List.mem_takeWhile_imp inside
    have filled : ((c :: rest).takeWhile fun c => !p c) ≠ [] := by simp [dropStops body]
    have whole : ((c :: rest).takeWhile fun c => !p c) ++ ((c :: rest).dropWhile fun c => !p c) = c :: rest :=
      List.takeWhile_append_dropWhile
    cases left : (c :: rest).dropWhile fun c => !p c with
    | nil =>
      rw [left,List.append_nil] at whole
      rw [whole] at clean ⊢
      exact wordsOne clean (List.cons_ne_nil c rest)
    | cons d after =>
      have blank : p d = true := by simpa using dropStops left
      rw [left] at whole
      calc words p (c :: rest) = words p (((c :: rest).takeWhile fun c => !p c) ++ d :: after) := by rw [whole]
        _ = ((c :: rest).takeWhile fun c => !p c) :: words p after := by
          rw [wordsSplit _ blank,wordsOne clean filled]
          rfl

/-- Two lists with a separator where they meet. -/
theorem wordsAppend (apart : (∀ c, front.getLast? = some c → p c = true) ∨ ∀ c, back.head? = some c → p c = true) :
    words p (front ++ back) = words p front ++ words p back := by
  rcases apart with ended | started
  · rcases List.eq_nil_or_concat front with rfl | ⟨init,c,rfl⟩
    · rfl
    · have blank : p c = true := ended c (by simp)
      rw [List.concat_eq_append,List.append_assoc,List.singleton_append,wordsSplit init blank,wordsSplit init blank,
        wordsNil,List.append_nil]
  · cases back with
    | nil => simp
    | cons c rest =>
      have blank : p c = true := started c rfl
      rw [wordsSplit front blank,wordsBlank blank]

/-- A list that ends within a word: what follows goes on with that word. -/
theorem wordsExtend {body : List α} (last : body.getLast? = some c) (inside : p c = false) (tail : List α) :
    ∃ init w, words p body = init ++ [w] ∧ words p (body ++ tail) =
      init ++ (w ++ tail.takeWhile fun c => !p c) :: words p (tail.dropWhile fun c => !p c) := by
  have whole : (body.rdropWhile fun c => !p c) ++ (body.rtakeWhile fun c => !p c) = body :=
    List.rdropWhile_append_rtakeWhile
  have clean : ∀ d ∈ body.rtakeWhile fun c => !p c, p d = false := fun d member => by
    simpa using List.mem_rtakeWhile_imp member
  have ended (d : α) (here : (body.rdropWhile fun c => !p c).getLast? = some d) : p d = true := by
    obtain ⟨filled,rfl⟩ := List.mem_getLast?_eq_getLast here
    simpa using List.rdropWhile_last_not (fun c => !p c) body filled
  generalize (body.rdropWhile fun c => !p c) = front at whole ended
  generalize (body.rtakeWhile fun c => !p c) = w at whole clean
  have filled : w ≠ [] := by
    rintro rfl
    rw [List.append_nil] at whole
    exact Bool.false_ne_true (inside.symm.trans (ended c (whole ▸ last)))
  have more : ∀ d ∈ w ++ tail.takeWhile fun c => !p c, p d = false := by
    intro d member
    rcases List.mem_append.mp member with early | late
    · exact clean d early
    · simpa using List.mem_takeWhile_imp late
  have started (d : α) (here : (tail.dropWhile fun c => !p c).head? = some d) : p d = true := by
    cases left : tail.dropWhile fun c => !p c with
    | nil => rw [left] at here; contradiction
    | cons e after =>
      rw [left] at here
      cases here
      simpa using dropStops left
  refine ⟨words p front,w,by rw [← whole,wordsAppend (.inl ended),wordsOne clean filled],?_⟩
  have split : body ++ tail = front ++ ((w ++ tail.takeWhile fun c => !p c) ++ tail.dropWhile fun c => !p c) := by
    rw [List.append_assoc,List.takeWhile_append_dropWhile,← List.append_assoc,whole]
  rw [split,wordsAppend (.inl ended),wordsAppend (.inr started),wordsOne more (by simp [filled])]
  rfl

end HpuCache.WordSplit
