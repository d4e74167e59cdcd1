import Mathlib.Data.List.FinRange

/-! Computations that end with a value or with a fault, and loops of them over a list.
A judgement says of both ends what holds there, so one rule serves for total and for
partial correctness. Nothing here names a program. -/
namespace HpuCache.FaultRun

variable {ε α β σ ι : Type} {faults : ε → Prop} {good : α → Prop}

/-- The computation ends with a good value, or with one of the admitted faults. -/
def Ends (faults : ε → Prop) (good : α → Prop) : Except ε α → Prop
  | .ok a => good a
  | .error e => faults e

@[simp] theorem endsOk {a : α} : Ends faults good (.ok a) ↔ good a := .rfl
@[simp] theorem endsError {e : ε} : Ends faults good (.error e) ↔ faults e := .rfl

theorem endsTotal {run : Except ε α} : Ends (fun _ => False) good run ↔ ∃ a, run = .ok a ∧ good a := by
  cases run <;> simp

theorem Ends.bind {mid : α → Prop} {post : β → Prop} {first : Except ε α} {next : α → Except ε β}
    (before : Ends faults mid first) (after : ∀ a, mid a → Ends faults post (next a)) :
    Ends faults post (first >>= next) := by
  cases first with
  | ok a => exact after a before
  | error e => exact before

theorem Ends.weaken {wider : α → Prop} {more : ε → Prop} {run : Except ε α} (ends : Ends faults good run)
    (value : ∀ a, good a → wider a) (fault : ∀ e, faults e → more e) : Ends more wider run := by
  cases run with
  | ok a => exact value a ends
  | error e => exact fault e ends

theorem Ends.imp {wider : α → Prop} {run : Except ε α} (ends : Ends faults good run)
    (value : ∀ a, good a → wider a) : Ends faults wider run := ends.weaken value fun _ => id

theorem Ends.both {also : α → Prop} {run : Except ε α} (left : Ends faults good run) (right : Ends faults also run) :
    Ends faults (fun a => good a ∧ also a) run := by
  cases run with
  | ok a => exact ⟨left,right⟩
  | error e => exact left

theorem Ends.value {run : Except ε α} {a : α} (ends : Ends faults good run) (ok : run = .ok a) : good a := by
  rwa [ok] at ends

theorem Ends.fault {run : Except ε α} {e : ε} (ends : Ends faults good run) (failed : run = .error e) : faults e := by
  rwa [failed] at ends

theorem valueBind (a : α) (next : α → Except ε β) : (Except.ok a >>= next) = next a := rfl

theorem bindOk {first : Except ε α} {next : α → Except ε β} {b : β} :
    (first >>= next) = .ok b ↔ ∃ a, first = .ok a ∧ next a = .ok b := by
  cases first <;> simp [bind,Except.bind]

variable {body : σ → ι → Except ε σ}

/-- The loop rule: the invariant speaks of the items that are done. -/
theorem foldEnds {inv : (ι → Prop) → σ → Prop} {items : List ι} (distinct : items.Nodup)
    (kept : ∀ done s i, i ∈ items → ¬ done i → inv done s →
      Ends faults (inv fun k => done k ∨ k = i) (body s i))
    {done : ι → Prop} (fresh : ∀ i ∈ items, ¬ done i) {s : σ} (start : inv done s) :
    Ends faults (inv fun k => done k ∨ k ∈ items) (items.foldlM body s) := by
  induction items generalizing done s with
  | nil => simpa [pure,Except.pure] using start
  | cons i rest ih =>
    have absent := (List.nodup_cons.mp distinct).1
    rw [List.foldlM_cons]
    refine (kept done s i (by simp) (fresh i (by simp)) start).bind fun t reached => ?_
    refine (ih (List.nodup_cons.mp distinct).2 (fun done s k inside => kept done s k (by simp [inside])) ?_
      reached).imp fun u last => ?_
    · rintro k inside (early | rfl)
      · exact fresh k (by simp [inside]) early
      · exact absent inside
    · simpa only [List.mem_cons,or_assoc] using last

/-- The loop rule when the invariant does not ask what is done. -/
theorem foldKept {inv : σ → Prop} {items : List ι}
    (kept : ∀ s, ∀ i ∈ items, inv s → Ends faults inv (body s i)) {s : σ} (start : inv s) :
    Ends faults inv (items.foldlM body s) := by
  induction items generalizing s with
  | nil => exact start
  | cons i rest ih =>
    rw [List.foldlM_cons]
    exact (kept s i (by simp) start).bind fun t reached => ih (fun s k inside => kept s k (by simp [inside])) reached

/-- A loop over all indices, in increasing order. -/
@[irreducible] def sweep {n : Nat} (body : σ → Fin n → Except ε σ) (s : σ) : Except ε σ :=
  (List.finRange n).foldlM body s

theorem sweepEnds {n : Nat} {body : σ → Fin n → Except ε σ} {inv : (Fin n → Prop) → σ → Prop}
    (kept : ∀ done s i, ¬ done i → inv done s → Ends faults (inv fun k => done k ∨ k = i) (body s i))
    {s : σ} (start : inv (fun _ => False) s) : Ends faults (inv fun _ => True) (sweep body s) := by
  have ends := foldEnds (List.nodup_finRange n) (fun done s i _ => kept done s i) (by simp) start
  simpa only [sweep,List.mem_finRange,or_true] using ends

end HpuCache.FaultRun
