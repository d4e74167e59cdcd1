import Mathlib.Data.List.Infix
import Mathlib.Logic.Basic

/-! Runs of a labelled transition system, with their past kept latest event first.
Nothing here names a program: the system is any step relation. -/
namespace HpuCache.EventRun

variable {σ ε : Type}

inductive Reach (step : σ → ε → σ → Prop) (start : σ) : List ε → σ → Prop where
  | start : Reach step start [] start
  | next {past s event t} (before : Reach step start past s) (taken : step s event t) :
      Reach step start (event :: past) t

/-- The step relation of a partial step function. -/
def Takes (step : σ → ε → Option σ) (s : σ) (event : ε) (t : σ) : Prop := step s event = some t

/-- The same steps, each one admitted by a condition on the state before it. -/
def Guarded (ok : σ → ε → Prop) (step : σ → ε → σ → Prop) (s : σ) (event : ε) (t : σ) : Prop :=
  ok s event ∧ step s event t

variable {step : σ → ε → σ → Prop} {start : σ}

theorem reachInvariant {inv : σ → Prop} (initial : inv start)
    (preserved : ∀ {s event t}, inv s → step s event t → inv t)
    {past s} (run : Reach step start past s) : inv s := by
  induction run with
  | start => exact initial
  | next _ taken ih => exact preserved ih taken

theorem reachHistory {inv : List ε → σ → Prop} (initial : inv [] start)
    (preserved : ∀ {past s event t}, Reach step start past s → inv past s → step s event t →
      inv (event :: past) t)
    {past s} (run : Reach step start past s) : inv past s := by
  induction run with
  | start => exact initial
  | next before taken ih => exact preserved before ih taken

theorem reachMono {wider : σ → ε → σ → Prop}
    (weaken : ∀ {s event t}, step s event t → wider s event t)
    {past s} (run : Reach step start past s) : Reach wider start past s := by
  induction run with
  | start => exact .start
  | next _ taken ih => exact .next ih (weaken taken)

theorem reachUnique {step : σ → ε → Option σ} {past : List ε} {s t : σ} (first : Reach (Takes step) start past s)
    (second : Reach (Takes step) start past t) : s = t := by
  induction first generalizing t with
  | start =>
    cases second
    rfl
  | next before taken ih =>
    cases second with
    | next before' taken' =>
      obtain rfl := ih before'
      exact Option.some.inj (taken.symm.trans taken')

/-- A step of the run so far, with what had happened before it. -/
def Once (step : σ → ε → σ → Prop) (start : σ) (past : List ε) (P : List ε → σ → ε → σ → Prop) : Prop :=
  ∃ before s event t, event :: before <:+ past ∧ Reach step start before s ∧ step s event t ∧ P before s event t

section
variable {past : List ε} {P Q : List ε → σ → ε → σ → Prop}

theorem onceNow {s t : σ} {event : ε} (run : Reach step start past s) (taken : step s event t)
    (holds : P past s event t) : Once step start (event :: past) P :=
  ⟨past,s,event,t,List.suffix_refl _,run,taken,holds⟩

theorem Once.later (once : Once step start past P) (event : ε) : Once step start (event :: past) P := by
  obtain ⟨before,s,e,t,part,run,taken,holds⟩ := once
  exact ⟨before,s,e,t,part.trans (List.suffix_cons _ _),run,taken,holds⟩

end

/-- Chronological execution, for runs that are to be evaluated. -/
def replay (step : σ → ε → Option σ) (s : σ) : List ε → Option σ
  | [] => some s
  | event :: rest => do
    let t ← step s event
    replay step t rest

theorem replayFrom {step : σ → ε → Option σ} {start s t : σ} {past later}
    (before : Reach (Takes step) start past s) (ok : replay step s later = some t) :
    Reach (Takes step) start (later.reverse ++ past) t := by
  induction later generalizing s past with
  | nil =>
    cases Option.some.inj ok
    exact before
  | cons event rest ih =>
    simp only [replay,bind,Option.bind_eq_some_iff] at ok
    obtain ⟨next,taken,ok⟩ := ok
    have reached := ih (before.next taken) ok
    simpa only [List.reverse_cons,List.append_assoc,List.singleton_append] using reached

theorem replayReach {step : σ → ε → Option σ} {start t : σ} {events}
    (ok : replay step start events = some t) : Reach (Takes step) start events.reverse t := by
  simpa only [List.append_nil] using replayFrom Reach.start ok

/-- A run whose steps pass a computable check that implies the condition on the steps. -/
theorem replayGuarded {step : σ → ε → Option σ} {start t : σ} {events} {ok : σ → ε → Prop}
    {check : σ → ε → Bool} (sound : ∀ s event, check s event = true → ok s event)
    (done : replay (fun s event => if check s event then step s event else none) start events = some t) :
    Reach (Guarded ok (Takes step)) start events.reverse t := by
  refine reachMono ?_ (replayReach done)
  intro s event next taken
  simp only [Takes] at taken
  split at taken <;> try contradiction
  exact ⟨sound s event (by assumption),taken⟩

theorem replaySeen {step : σ → ε → Option σ} {start : σ} {events} {seen : σ → Bool}
    (played : (replay step start events).any seen = true) :
    ∃ t, replay step start events = some t ∧ seen t = true := by
  cases done : replay step start events with
  | none => simp [done] at played
  | some t =>
    rw [done] at played
    exact ⟨t,rfl,played⟩

theorem replayShown {step : σ → ε → Option σ} {start : σ} {events} {ok : σ → ε → Prop} {check : σ → ε → Bool}
    {seen : σ → Bool} (sound : ∀ s event, check s event = true → ok s event)
    (played : (replay (fun s event => if check s event then step s event else none) start events).any seen = true) :
    ∃ t, Reach (Guarded ok (Takes step)) start events.reverse t ∧ seen t = true := by
  obtain ⟨t,done,shown⟩ := replaySeen played
  exact ⟨t,replayGuarded sound done,shown⟩

end HpuCache.EventRun
