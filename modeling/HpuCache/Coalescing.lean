import HpuCache.LatestEntry

/-! Keeping only the last command of each key. Nothing is lost when commands of
different keys commute and the last command of a key hides the earlier ones; for
two commands that is also needed. Commands with a footprint have both properties
where the footprints are apart and where the last command overwrites. -/
namespace HpuCache.Coalescing
open KeyedDict LatestEntry

section sequences
variable {α κ σ : Type} {key : α → κ} {exec : α → σ → σ}

def runAll (exec : α → σ → σ) (xs : List α) (s : σ) : σ := xs.foldl (fun s x => exec x s) s

@[simp] theorem runAllCons (exec : α → σ → σ) (x : α) (xs : List α) (s : σ) :
    runAll exec (x :: xs) s = runAll exec xs (exec x s) := rfl

/-- What makes it enough to run the last command of each key, in any order. -/
structure Coalesces (exec : α → σ → σ) (key : α → κ) (xs : List α) : Prop where
  commute : ∀ x ∈ xs, ∀ y ∈ xs, key x ≠ key y → ∀ s, exec x (exec y s) = exec y (exec x s)
  absorb : ∀ front x middle y back, xs = front ++ x :: (middle ++ y :: back) → key x = key y →
    (∀ z ∈ back, key z ≠ key y) → ∀ s, exec y (exec x s) = exec y s

theorem coalescesTail {x : α} {xs : List α} (good : Coalesces exec key (x :: xs)) : Coalesces exec key xs := by
  refine ⟨fun y left z right => good.commute y (List.mem_cons_of_mem x left) z (List.mem_cons_of_mem x right),?_⟩
  rintro front y middle z back rfl
  exact good.absorb (x :: front) y middle z back rfl

/-- Commands may be read through a map that keeps their keys. -/
theorem coalescesMap {β : Type} {g : β → α} {key' : β → κ} {xs : List β} (same : ∀ x, key (g x) = key' x)
    (good : Coalesces exec key (xs.map g)) : Coalesces (fun x => exec (g x)) key' xs := by
  refine ⟨fun x left y right other => good.commute (g x) (List.mem_map_of_mem left) (g y)
    (List.mem_map_of_mem right) (by rwa [same,same]),?_⟩
  rintro front x middle y back rfl own last
  refine good.absorb (front.map g) (g x) (middle.map g) (g y) (back.map g) (by simp) (by rw [same,same,own]) ?_
  intro z member
  obtain ⟨w,inside,rfl⟩ := List.mem_map.mp member
  rw [same,same]
  exact last w inside

theorem latestCons {x y : α} {xs : List α} :
    Latest key (x :: xs) y ↔ Latest key xs y ∨ (y = x ∧ ∀ z ∈ xs, key z ≠ key x) := by
  constructor
  · rintro ⟨_ | ⟨first,front⟩,back,shape,apart⟩
    · obtain ⟨rfl,rfl⟩ := List.cons.inj shape
      exact .inr ⟨rfl,apart⟩
    · obtain ⟨rfl,rfl⟩ := List.cons.inj shape
      exact .inl ⟨front,back,rfl,apart⟩
  · rintro (⟨front,back,rfl,apart⟩ | ⟨rfl,apart⟩)
    · exact ⟨x :: front,back,rfl,apart⟩
    · exact ⟨[],xs,rfl,apart⟩

theorem runPerm {xs ys zs : List α} (good : Coalesces exec key xs) (perm : ys.Perm zs)
    (distinct : (ys.map key).Nodup) (sub : ∀ y ∈ ys, y ∈ xs) (s : σ) : runAll exec ys s = runAll exec zs s := by
  refine perm.foldl_eq' ?_ s
  intro x left y right t
  by_cases same : key x = key y
  · rw [List.inj_on_of_nodup_map distinct left right same]
  · exact good.commute y (sub y right) x (sub x left) (Ne.symm same) t

variable [DecidableEq κ]

/-- The commands without those that a later one of the same key follows. -/
def coalesce (key : α → κ) : List α → List α
  | [] => []
  | x :: rest => if rest.any (fun y => key y = key x) then coalesce key rest else x :: coalesce key rest

theorem memCoalesce {xs : List α} {y : α} : y ∈ coalesce key xs ↔ Latest key xs y := by
  induction xs with
  | nil => simp [coalesce,latestNil]
  | cons x rest ih =>
    rw [latestCons,coalesce]
    split
    · rename_i later
      obtain ⟨z,member,same⟩ := List.any_eq_true.mp later
      rw [ih]
      exact ⟨.inl,fun h => h.resolve_right (fun last => last.2 z member (by simpa using same))⟩
    · rename_i last
      have apart : ∀ z ∈ rest, key z ≠ key x := by simpa using last
      rw [List.mem_cons,ih,or_comm]
      exact ⟨fun h => h.imp_right (fun own => ⟨own,apart⟩),fun h => h.imp_right And.left⟩

theorem coalesceDistinct (key : α → κ) (xs : List α) : ((coalesce key xs).map key).Nodup := by
  induction xs with
  | nil => exact .nil
  | cons x rest ih =>
    rw [coalesce]
    split
    · exact ih
    · rename_i last
      refine List.nodup_cons.mpr ⟨?_,ih⟩
      intro member
      obtain ⟨z,inside,same⟩ := List.mem_map.mp member
      have apart : ∀ z ∈ rest, key z ≠ key x := by simpa using last
      exact apart z (latestMem (memCoalesce.mp inside)) same

theorem coalesceRun {xs : List α} (good : Coalesces exec key xs) (s : σ) :
    runAll exec (coalesce key xs) s = runAll exec xs s := by
  induction xs generalizing s with
  | nil => rfl
  | cons x rest ih =>
    have tail := coalescesTail good
    rw [coalesce,runAllCons,← ih tail (exec x s)]
    split
    · rename_i later
      obtain ⟨z,member,same⟩ := List.any_eq_true.mp later
      obtain ⟨y,latest,own⟩ : ∃ y, Latest key rest y ∧ key y = key z := latestExists member
      have xKey : key x = key y := by rw [own]; simpa using Eq.symm (of_decide_eq_true same)
      -- The command that hides the first one can be run before all the others.
      obtain ⟨front,back,shape⟩ := List.append_of_mem (memCoalesce.mpr latest)
      have perm : (coalesce key rest).Perm (y :: (front ++ back)) := by
        rw [shape]
        exact List.perm_middle
      have sub : ∀ z ∈ coalesce key rest, z ∈ rest := fun z inside => latestMem (memCoalesce.mp inside)
      have reorder := runPerm tail perm (coalesceDistinct key rest) sub
      obtain ⟨before,after,split,apart⟩ := latest
      rw [reorder,reorder,runAllCons,runAllCons,
        good.absorb [] x before y after (by rw [split]; rfl) xKey apart]
    · rfl

/-- Any arrangement of the last commands of each key does what the whole sequence does. -/
theorem latestRun {xs ys : List α} (good : Coalesces exec key xs) (distinct : (ys.map key).Nodup)
    (latest : ∀ y, y ∈ ys ↔ Latest key xs y) (s : σ) : runAll exec ys s = runAll exec xs s := by
  have perm : ys.Perm (coalesce key xs) :=
    (List.perm_ext_iff_of_nodup distinct.of_map (coalesceDistinct key xs).of_map).mpr
      (fun y => (latest y).trans memCoalesce.symm)
  rw [runPerm good perm distinct (fun y member => latestMem ((latest y).mp member)) s,coalesceRun good s]

/-- For two commands the conditions are exactly what is needed. -/
theorem pairNeeds (x y : α) : Coalesces exec key [x,y] ↔
    ∀ ys, (ys.map key).Nodup → (∀ z, z ∈ ys ↔ Latest key [x,y] z) → ∀ s, runAll exec ys s = runAll exec [x,y] s := by
  have latest : ∀ z, Latest key [x,y] z ↔ z = y ∨ (z = x ∧ key y ≠ key x) := by
    intro z
    rw [← memCoalesce]
    by_cases same : key y = key x <;> simp [coalesce,same,or_comm]
  refine ⟨fun good ys distinct last s => latestRun good distinct last s,fun all => ⟨?_,?_⟩⟩
  · intro a left b right other s
    have both : ∀ s, key y ≠ key x → exec x (exec y s) = exec y (exec x s) := by
      intro s apart
      refine all [y,x] (by simpa using apart) (fun z => ?_) s
      rw [latest z]
      simp [apart]
    simp only [List.mem_cons,List.not_mem_nil,or_false] at left right
    rcases left with rfl | rfl <;> rcases right with rfl | rfl
    · rfl
    · exact both s (Ne.symm other)
    · exact (both s other).symm
    · rfl
  · intro front a middle b back shape same _ s
    have lengths := congrArg List.length shape
    simp only [List.length_cons,List.length_append,List.length_nil] at lengths
    obtain rfl := List.eq_nil_of_length_eq_zero (show front.length = 0 by omega)
    obtain rfl := List.eq_nil_of_length_eq_zero (show middle.length = 0 by omega)
    obtain rfl := List.eq_nil_of_length_eq_zero (show back.length = 0 by omega)
    simp only [List.nil_append,List.cons.injEq,and_true] at shape
    obtain ⟨rfl,rfl⟩ := shape
    refine (all [y] (by simp) (fun z => ?_) s).symm
    rw [latest z]
    simp [same]

end sequences

/-- Commands on a store of keys, each with the keys that it may read and write. -/
structure Footprint (α κ ν : Type) where
  exec : α → (κ → ν) → κ → ν
  touches : α → κ → Prop
  frame : ∀ a s k, ¬ touches a k → exec a s k = s k
  reads : ∀ a s t, (∀ k, touches a k → s k = t k) → ∀ k, touches a k → exec a s k = exec a t k

section footprints
variable {α κ ν : Type} (f : Footprint α κ ν)

/-- What the command leaves does not depend on what was there. -/
def Footprint.Overwrites (a : α) : Prop := ∀ s t k, f.touches a k → f.exec a s k = f.exec a t k

theorem apartCommute {a b : α} (apart : ∀ k, f.touches a k → ¬ f.touches b k) (s : κ → ν) :
    f.exec a (f.exec b s) = f.exec b (f.exec a s) := by
  funext k
  by_cases left : f.touches a k
  · rw [f.frame b _ k (apart k left)]
    exact f.reads a _ _ (fun j own => f.frame b s j (apart j own)) k left
  · rw [f.frame a _ k left]
    by_cases right : f.touches b k
    · exact (f.reads b _ _ (fun j own => f.frame a s j (fun other => apart j other own)) k right).symm
    · rw [f.frame b s k right,f.frame b _ k right,f.frame a s k left]

theorem overwriteAbsorbs {a b : α} (cover : ∀ k, f.touches a k → f.touches b k) (hides : f.Overwrites b)
    (s : κ → ν) : f.exec b (f.exec a s) = f.exec b s := by
  funext k
  by_cases own : f.touches b k
  · exact hides _ _ k own
  · rw [f.frame b _ k own,f.frame b s k own]
    exact f.frame a s k (fun left => own (cover k left))

/-- Footprints apart under different keys, and a last command that overwrites the rest. -/
theorem footprintCoalesces {μ : Type} {key : α → μ} {xs : List α}
    (apart : ∀ x ∈ xs, ∀ y ∈ xs, key x ≠ key y → ∀ k, f.touches x k → ¬ f.touches y k)
    (absorbed : ∀ front x middle y back, xs = front ++ x :: (middle ++ y :: back) → key x = key y →
      (∀ z ∈ back, key z ≠ key y) → f.Overwrites y ∧ ∀ k, f.touches x k → f.touches y k) :
    Coalesces f.exec key xs := by
  refine ⟨fun x left y right other s => apartCommute f (apart x left y right other) s,?_⟩
  intro front x middle y back shape same last s
  obtain ⟨hides,cover⟩ := absorbed front x middle y back shape same last
  exact overwriteAbsorbs f cover hides s

end footprints
end HpuCache.Coalescing
