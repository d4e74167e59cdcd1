import Mathlib.Data.List.Nodup

/-! A bounded list of pairs in the order of their last use: what a least-recently-used
cache is for, with no pointers and no hash table. -/
namespace HpuCache.RecencyList

variable {κ α : Type} [DecidableEq κ]

def recencyFind (key : κ) (pairs : List (κ × α)) : Option (κ × α) := pairs.find? (fun p => p.1 = key)

def without (key : κ) (pairs : List (κ × α)) : List (κ × α) := pairs.filter (fun p => p.1 ≠ key)

def recencySet (capacity : Nat) (key : κ) (data : α) (pairs : List (κ × α)) : List (κ × α) :=
  if key ∈ pairs.map Prod.fst then (key,data) :: without key pairs
  else (key,data) :: if pairs.length < capacity then pairs else pairs.dropLast

def recencyGet (key : κ) (pairs : List (κ × α)) : List (κ × α) :=
  match recencyFind key pairs with
  | some p => p :: without key pairs
  | none => pairs

theorem withoutAbsent {key : κ} {pairs : List (κ × α)} (absent : key ∉ pairs.map Prod.fst) :
    without key pairs = pairs := by
  refine List.filter_eq_self.mpr (fun p member => ?_)
  simpa using fun same : p.1 = key => absent (same ▸ List.mem_map_of_mem member)

variable {key : κ} {data : α} {front back : List (κ × α)}

omit [DecidableEq κ] in
theorem splitAbsent (distinct : ((front ++ (key,data) :: back).map Prod.fst).Nodup) :
    key ∉ front.map Prod.fst ∧ key ∉ back.map Prod.fst := by
  rw [List.map_append,List.map_cons] at distinct
  obtain ⟨_,right,apart⟩ := List.nodup_append.mp distinct
  exact ⟨fun member => apart key member key List.mem_cons_self rfl,(List.nodup_cons.mp right).1⟩

theorem withoutSplit (distinct : ((front ++ (key,data) :: back).map Prod.fst).Nodup) :
    without key (front ++ (key,data) :: back) = front ++ back := by
  obtain ⟨inFront,inBack⟩ := splitAbsent distinct
  calc without key (front ++ (key,data) :: back) = without key front ++ without key back := by
        simp [without]
    _ = front ++ back := by rw [withoutAbsent inFront,withoutAbsent inBack]

theorem findMiss {pairs : List (κ × α)} (absent : key ∉ pairs.map Prod.fst) : recencyFind key pairs = none :=
  List.find?_eq_none.mpr (fun p member => by
    simpa using fun same : p.1 = key => absent (same ▸ List.mem_map_of_mem member))

theorem findSplit (distinct : ((front ++ (key,data) :: back).map Prod.fst).Nodup) :
    recencyFind key (front ++ (key,data) :: back) = some (key,data) := by
  have missed : front.find? (fun p => decide (p.1 = key)) = none := findMiss (splitAbsent distinct).1
  simp [recencyFind,List.find?_append,missed]

omit [DecidableEq κ] in
theorem frontDistinct {other : α} (distinct : ((front ++ (key,data) :: back).map Prod.fst).Nodup) :
    (((key,other) :: (front ++ back)).map Prod.fst).Nodup := by
  rw [List.map_append,List.map_cons] at distinct
  rw [List.map_cons,List.map_append]
  exact List.nodup_middle.mp distinct

theorem setHit (capacity : Nat) (other : α) (distinct : ((front ++ (key,data) :: back).map Prod.fst).Nodup) :
    recencySet capacity key other (front ++ (key,data) :: back) = (key,other) :: (front ++ back) := by
  rw [recencySet,if_pos (by simp),withoutSplit distinct]

theorem getHit (distinct : ((front ++ (key,data) :: back).map Prod.fst).Nodup) :
    recencyGet key (front ++ (key,data) :: back) = (key,data) :: (front ++ back) := by
  rw [recencyGet,findSplit distinct,withoutSplit distinct]

theorem getMiss {pairs : List (κ × α)} (absent : key ∉ pairs.map Prod.fst) : recencyGet key pairs = pairs := by
  rw [recencyGet,findMiss absent]

section members
variable {pairs : List (κ × α)} {p : κ × α}

theorem memWithout : p ∈ without key pairs ↔ p ∈ pairs ∧ p.1 ≠ key := by
  simp [without]

theorem memSet (capacity : Nat) (member : p ∈ recencySet capacity key data pairs) :
    p = (key,data) ∨ p.1 ≠ key ∧ p ∈ pairs := by
  unfold recencySet at member
  split at member
  · rcases List.mem_cons.mp member with own | rest
    · exact .inl own
    · exact .inr (memWithout.mp rest).symm
  · rename_i absent
    rcases List.mem_cons.mp member with own | rest
    · exact .inl own
    · have inside : p ∈ pairs := by
        split at rest
        · exact rest
        · exact List.dropLast_subset _ rest
      exact .inr ⟨fun same => absent (same ▸ List.mem_map_of_mem inside),inside⟩

theorem setMem (capacity : Nat) : (key,data) ∈ recencySet capacity key data pairs := by
  unfold recencySet
  split <;> exact List.mem_cons_self

theorem memGet : p ∈ recencyGet key pairs → p ∈ pairs := by
  intro member
  unfold recencyGet at member
  split at member
  · rename_i q found
    rcases List.mem_cons.mp member with rfl | rest
    · exact List.mem_of_find?_eq_some found
    · exact (memWithout.mp rest).1
  · exact member

end members

section sets
variable {pairs puts : List (κ × α)} {capacity : Nat}

/-- The same without a bound. -/
def recencyPut (key : κ) (data : α) (pairs : List (κ × α)) : List (κ × α) := (key,data) :: without key pairs

theorem putDistinct (key : κ) (data : α) (distinct : (pairs.map Prod.fst).Nodup) :
    ((recencyPut key data pairs).map Prod.fst).Nodup := by
  refine List.nodup_cons.mpr ⟨by simp [without],distinct.sublist (List.filter_sublist.map _)⟩

theorem withoutTake {n : Nat} (distinct : (pairs.map Prod.fst).Nodup)
    (member : key ∈ (pairs.take (n + 1)).map Prod.fst) :
    without key (pairs.take (n + 1)) = (without key pairs).take n := by
  obtain ⟨⟨k,d⟩,inside,rfl⟩ := List.mem_map.mp member
  obtain ⟨front,back,shape⟩ := List.append_of_mem inside
  have whole := (List.take_append_drop (n + 1) pairs).symm
  have short := congrArg List.length shape
  rw [List.length_take] at short
  rw [shape] at whole ⊢
  generalize pairs.drop (n + 1) = rest at whole
  subst whole
  rw [List.append_assoc,List.cons_append] at distinct
  have early : ((front ++ (k,d) :: back).map Prod.fst).Nodup :=
    distinct.sublist (((List.Sublist.refl _).append ((List.sublist_append_left back rest).cons_cons _)).map _)
  rw [withoutSplit early,List.append_assoc,List.cons_append,withoutSplit distinct,← List.append_assoc]
  simp only [List.length_append,List.length_cons] at short
  rcases Nat.eq_zero_or_pos rest.length with none | some
  · obtain rfl := List.eq_nil_of_length_eq_zero none
    rw [List.append_nil,List.take_of_length_le]
    rw [List.length_append]
    omega
  · rw [List.take_left']
    rw [List.length_append]
    omega

theorem withoutBeyond {n : Nat} (absent : key ∉ (pairs.take (n + 1)).map Prod.fst) :
    (without key pairs).take n = pairs.take n := by
  have whole : without key pairs = pairs.take (n + 1) ++ without key (pairs.drop (n + 1)) := by
    calc without key pairs = without key (pairs.take (n + 1)) ++ without key (pairs.drop (n + 1)) := by
          rw [without,without,without,← List.filter_append,List.take_append_drop]
      _ = _ := by rw [withoutAbsent absent]
  rw [whole,List.take_append,List.take_take,Nat.min_eq_left (Nat.le_succ n)]
  by_cases short : pairs.length ≤ n
  · rw [List.drop_of_length_le (by omega)]
    simp [without]
  · rw [List.length_take,Nat.min_eq_left (by omega),Nat.sub_eq_zero_of_le
      (Nat.le_succ n),List.take_zero,List.append_nil]

/-- A bounded list is the front of the one without a bound. -/
theorem setTake (room : 1 ≤ capacity) (distinct : (pairs.map Prod.fst).Nodup) :
    recencySet capacity key data (pairs.take capacity) = (recencyPut key data pairs).take capacity := by
  obtain ⟨n,rfl⟩ := Nat.exists_eq_add_one.mpr room
  rw [recencySet,recencyPut,List.take_succ_cons]
  split
  · next member => rw [withoutTake distinct member]
  · next absent =>
    rw [withoutBeyond absent,List.length_take]
    split
    · next short => rw [List.take_of_length_le (by omega),List.take_of_length_le (by omega)]
    · next full => rw [List.dropLast_eq_take,List.length_take,List.take_take,Nat.min_eq_left (by omega)]; congr 2; omega

def recencySets (capacity : Nat) (puts pairs : List (κ × α)) : List (κ × α) :=
  puts.foldl (fun pairs p => recencySet capacity p.1 p.2 pairs) pairs

theorem setsTake (room : 1 ≤ capacity) (once : (puts.map Prod.fst).Nodup) (distinct : (pairs.map Prod.fst).Nodup) :
    recencySets capacity puts (pairs.take capacity) =
      (puts.reverse ++ pairs.filter fun p => p.1 ∉ puts.map Prod.fst).take capacity := by
  induction puts generalizing pairs with
  | nil => simp [recencySets]
  | cons p rest ih =>
    obtain ⟨fresh,once⟩ := List.nodup_cons.mp once
    have later := ih once (putDistinct p.1 p.2 distinct)
    rw [← setTake room distinct] at later
    rw [recencySets,List.foldl_cons]
    refine later.trans ?_
    have skipped : (recencyPut p.1 p.2 pairs).filter (fun q => q.1 ∉ rest.map Prod.fst) =
        p :: pairs.filter fun q => q.1 ∉ (p :: rest).map Prod.fst := by
      rw [recencyPut,List.filter_cons_of_pos (by simpa using fresh),without,List.filter_filter]
      congr 1
      refine List.filter_congr fun q _ => ?_
      rw [Bool.eq_iff_iff]
      simp only [Bool.and_eq_true,decide_eq_true_eq,List.map_cons,List.mem_cons,not_or,ne_eq,and_comm]
    rw [skipped]
    simp

theorem setsWhole (room : 1 ≤ capacity) (once : (puts.map Prod.fst).Nodup) (distinct : (pairs.map Prod.fst).Nodup)
    (short : pairs.length ≤ capacity) : recencySets capacity puts pairs =
      (puts.reverse ++ pairs.filter fun p => p.1 ∉ puts.map Prod.fst).take capacity := by
  have whole := setsTake room once distinct
  rwa [List.take_of_length_le short] at whole

/-- All puts are there, and what was there before is what they left. -/
theorem setsMember (room : 1 ≤ capacity) (once : (puts.map Prod.fst).Nodup) (distinct : (pairs.map Prod.fst).Nodup)
    (short : pairs.length ≤ capacity) (fits : puts.length ≤ capacity) {p : κ × α} :
    (p ∈ puts → p ∈ recencySets capacity puts pairs) ∧ (p ∈ recencySets capacity puts pairs →
      p ∈ puts ∨ p ∈ pairs) := by
  rw [setsWhole room once distinct short,List.take_append,List.take_of_length_le (by simpa using fits)]
  refine ⟨fun member => by simp [member],fun member => ?_⟩
  rcases List.mem_append.mp member with member | member
  · exact .inl (List.mem_reverse.mp member)
  · exact .inr (List.mem_filter.mp (List.mem_of_mem_take member)).1

/-- The pairs of some keys keep their order, with the last of them gone where the list is full, only
if those that were put again are the first of them, the other way round. -/
theorem setsKept (room : 1 ≤ capacity) (once : (puts.map Prod.fst).Nodup) (distinct : (pairs.map Prod.fst).Nodup)
    (short : pairs.length ≤ capacity) (fits : puts.length ≤ capacity) (keys : List κ) :
    (∃ gone, pairs.filter (fun p => p.1 ∈ keys) =
        (recencySets capacity puts pairs).filter (fun p => p.1 ∈ keys) ++ gone ∧
        (gone ≠ [] → (recencySets capacity puts pairs).length = capacity)) ↔
      (puts.filter fun p => p.1 ∈ keys).reverse <+: pairs.filter fun p => p.1 ∈ keys := by
  rw [setsWhole room once distinct short]
  constructor
  · rintro ⟨gone,same,_⟩
    rw [List.take_append,List.take_of_length_le (by simpa using fits),List.filter_append,List.append_assoc,
      List.filter_reverse] at same
    exact ⟨_,same.symm⟩
  · rintro ⟨rest,same⟩
    let whole := puts.reverse ++ pairs.filter fun p => p.1 ∉ puts.map Prod.fst
    have apart := (List.nodup_append.mp (List.map_append ▸ same ▸ distinct.sublist (List.filter_sublist.map _))).2.2
    have others : rest.filter (fun p => p.1 ∉ puts.map Prod.fst) = rest := by
      refine List.filter_eq_self.mpr fun q member => decide_eq_true fun again => ?_
      obtain ⟨p,put,key⟩ := List.mem_map.mp again
      have kept : q ∈ pairs.filter fun p => p.1 ∈ keys := same ▸ List.mem_append_right _ member
      have early : p ∈ (puts.filter fun p => p.1 ∈ keys).reverse :=
        List.mem_reverse.mpr (List.mem_filter.mpr ⟨put,key ▸ (List.mem_filter.mp kept).2⟩)
      exact apart p.1 (List.mem_map_of_mem early) q.1 (List.mem_map_of_mem member) key
    have again : (puts.filter fun p => p.1 ∈ keys).reverse.filter (fun p => p.1 ∉ puts.map Prod.fst) = [] := by
      refine List.filter_eq_nil_iff.mpr fun p member => ?_
      have put := (List.mem_filter.mp (List.mem_reverse.mp member)).1
      simpa using ⟨p.2,put⟩
    have shape : whole.filter (fun p => p.1 ∈ keys) = pairs.filter fun p => p.1 ∈ keys := by
      calc whole.filter (fun p => p.1 ∈ keys)
          = (puts.filter fun p => p.1 ∈ keys).reverse ++
            (pairs.filter fun p => p.1 ∈ keys).filter (fun p => p.1 ∉ puts.map Prod.fst) := by
            rw [List.filter_append,List.filter_reverse,List.filter_comm]
        _ = pairs.filter fun p => p.1 ∈ keys := by
            rw [← same,List.filter_append,again,others,List.nil_append]
    refine ⟨(whole.drop capacity).filter fun p => p.1 ∈ keys,?_,fun more => ?_⟩
    · rw [← List.filter_append,List.take_append_drop,shape]
    · rw [List.length_take,Nat.min_eq_left]
      refine Nat.le_of_not_lt fun small => more ?_
      rw [List.drop_of_length_le (Nat.le_of_lt small),List.filter_nil]

end sets
end HpuCache.RecencyList
