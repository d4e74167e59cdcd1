import HpuCache.EventRun
import HpuCache.KeySlot
import Mathlib.Algebra.BigOperators.Fin
import Mathlib.Algebra.Order.Ring.Rat
import Mathlib.Data.Fintype.BigOperators
import Mathlib.Tactic.Linarith
import Mathlib.Tactic.FieldSimp

/-! The hotness of the slots: three rates over one counter of operations. Every tick of any
rate brings the counter up to date, and the longer periods rely on the short tick before them. -/
namespace HpuCache.HotMetric
open KeySlot EventRun

inductive UpdTag where
  | S_UPD | M_UPD | L_UPD
  deriving DecidableEq, Repr

def updTime : UpdTag → Nat
  | .S_UPD => 1
  | .M_UPD => 10
  | .L_UPD => 60

structure SlotHot where
  dealedOps : Nat
  current : ℚ
  hot : UpdTag → ℚ
  hotTag : UpdTag → ℚ

def SlotHot.zeroed : SlotHot := ⟨0,0,fun _ => 0,fun _ => 0⟩

structure Myself where
  slots : Slot → Bool
  numslots : Nat

structure HotState where
  -- The static counter of `clusterCron`, an unsigned long long.
  iteration : Nat
  slotStatus : Slot → SlotHot
  avgSlotHotForNode : UpdTag → ℚ

def HotState.zeroed : HotState := ⟨0,fun _ => .zeroed,fun _ => 0⟩

def updateOneSlot (timePeriod : Nat) (tag : UpdTag) (t : SlotHot) : SlotHot where
  dealedOps := t.dealedOps
  current := t.dealedOps
  hot := Function.update t.hot tag ((t.current - t.hotTag tag) / timePeriod)
  hotTag := Function.update t.hotTag tag t.current

def slotHotMetric (myself : Myself) (timePeriod : Nat) (tag : UpdTag) (s : HotState) : HotState :=
  let slotStatus := fun i => if myself.slots i then updateOneSlot timePeriod tag (s.slotStatus i) else s.slotStatus i
  let avgHot := ∑ i, if myself.slots i then (slotStatus i).hot tag else 0
  { s with
    slotStatus := slotStatus
    avgSlotHotForNode := Function.update s.avgSlotHotForNode tag
      (if myself.numslots ≠ 0 then avgHot / myself.numslots else 0) }

def ticks (iteration : Nat) (tag : UpdTag) : Bool := iteration % (updTime tag * 10) = 0

def hotTick (myself : Myself) (tag : UpdTag) (s : HotState) : HotState :=
  if ticks s.iteration tag then slotHotMetric myself (updTime tag) tag s else s

def clusterCron (myself : Myself) (s : HotState) : HotState :=
  hotTick myself .L_UPD <| hotTick myself .M_UPD <| hotTick myself .S_UPD
    { s with iteration := (s.iteration + 1) % 2 ^ 64 }

def dealOp (slot : Slot) (s : HotState) : HotState :=
  let counted := { s.slotStatus slot with dealedOps := (s.slotStatus slot).dealedOps + 1 }
  { s with slotStatus := Function.update s.slotStatus slot counted }

inductive HotEvent where
  | processCommand (hashslot : Slot)
  | clusterCron (myself : Myself)

def hotStep (s : HotState) : HotEvent → HotState
  | .processCommand hashslot => dealOp hashslot s
  | .clusterCron myself => clusterCron myself s

/-- A rate as a tick published it, and the operations of the slot until then. -/
structure Tick where
  rate : ℚ
  dealed : Nat

/-- A run as one slot sees it, with its ticks latest first. -/
structure Metered where
  hots : HotState
  ticked : UpdTag → List Tick

def recorded (slot : Slot) (s : HotState) (tag : UpdTag) : List Tick :=
  if ticks s.iteration tag then [⟨(s.slotStatus slot).hot tag,(s.slotStatus slot).dealedOps⟩] else []

def meteredStep (slot : Slot) (m : Metered) (event : HotEvent) : Metered :=
  let after := hotStep m.hots event
  match event with
  | .processCommand _ => ⟨after,m.ticked⟩
  | .clusterCron _ => ⟨after,fun tag => recorded slot after tag ++ m.ticked tag⟩

/-- The operations until the latest of these ticks; the start is the tick before the first. -/
def dealedAt : List Tick → Nat
  | [] => 0
  | tick :: _ => tick.dealed

/-- The rate of a tick, from the ticks of its tag before it. The short tick comes first in its
iteration, so it still sees the counter of the tick before; the longer ones see it brought up to date. -/
def countedBy (tag : UpdTag) (before : List Tick) (dealed : Nat) : ℚ :=
  match tag with
  | .S_UPD => (dealedAt before : ℚ) - dealedAt before.tail
  | .M_UPD => (dealed : ℚ) - dealedAt before
  | .L_UPD => (dealed : ℚ) - dealedAt before

/-- Every tick published what was counted, and the operations were counted one after the other. -/
def Exact (tag : UpdTag) : List Tick → Nat → Prop
  | [], _ => True
  | tick :: before, now => tick.dealed ≤ now ∧ tick.rate * updTime tag = countedBy tag before tick.dealed ∧
      Exact tag before tick.dealed

structure SlotInv (dealed : Nat) (t : SlotHot) (ticked : UpdTag → List Tick) : Prop where
  counted : t.dealedOps = dealed
  exact_ : ∀ tag, Exact tag (ticked tag) dealed
  current : t.current = dealedAt (ticked .S_UPD)
  short : t.hotTag .S_UPD = dealedAt (ticked .S_UPD).tail
  middle : t.hotTag .M_UPD = dealedAt (ticked .M_UPD)
  long : t.hotTag .L_UPD = dealedAt (ticked .L_UPD)

section
variable {dealed : Nat} {t : SlotHot} {ticked : UpdTag → List Tick} {tag : UpdTag}

def slotTick (tag : UpdTag) (t : SlotHot) : SlotHot := updateOneSlot (updTime tag) tag t

def logTick (tag : UpdTag) (t : SlotHot) (ticked : UpdTag → List Tick) : UpdTag → List Tick :=
  Function.update ticked tag (⟨(slotTick tag t).hot tag,t.dealedOps⟩ :: ticked tag)

theorem rateTimes (tag : UpdTag) (t : SlotHot) : (slotTick tag t).hot tag * updTime tag = t.current - t.hotTag tag := by
  have positive : (updTime tag : ℚ) ≠ 0 := by cases tag <;> simp [updTime]
  simp only [slotTick,updateOneSlot,Function.update_self]
  exact div_mul_cancel₀ _ positive

theorem logExact (inv : SlotInv dealed t ticked) (counts : t.current - t.hotTag tag = countedBy tag (ticked tag) dealed)
    (other : UpdTag) : Exact other (logTick tag t ticked other) dealed := by
  by_cases here : other = tag
  · subst here
    simp only [logTick,Function.update_self,Exact,inv.counted]
    exact ⟨le_refl _,(rateTimes other t).trans counts,inv.exact_ other⟩
  · simpa only [logTick,Function.update_of_ne here] using inv.exact_ other

theorem shortTick (inv : SlotInv dealed t ticked) : SlotInv dealed (slotTick .S_UPD t) (logTick .S_UPD t ticked) ∧
    (slotTick .S_UPD t).current = dealed := by
  have now : (slotTick .S_UPD t).current = dealed := congrArg Nat.cast inv.counted
  refine ⟨⟨inv.counted,logExact inv ?_,?_,?_,?_,?_⟩,now⟩
  · rw [inv.current,inv.short]
    rfl
  · simp [now,logTick,dealedAt,inv.counted]
  · simp [slotTick,updateOneSlot,logTick,inv.current]
  · simpa [slotTick,updateOneSlot,logTick] using inv.middle
  · simpa [slotTick,updateOneSlot,logTick] using inv.long

theorem longerTick (inv : SlotInv dealed t ticked) (fresh : t.current = dealed) (longer : tag ≠ .S_UPD) :
    SlotInv dealed (slotTick tag t) (logTick tag t ticked) ∧ (slotTick tag t).current = dealed := by
  have now : (slotTick tag t).current = dealed := congrArg Nat.cast inv.counted
  have kept : logTick tag t ticked .S_UPD = ticked .S_UPD := Function.update_of_ne longer.symm _ _
  have shortKept : (slotTick tag t).hotTag .S_UPD = t.hotTag .S_UPD := Function.update_of_ne longer.symm _ _
  have counts : t.current - t.hotTag tag = countedBy tag (ticked tag) dealed := by
    cases tag with
    | S_UPD => contradiction
    | M_UPD => rw [fresh,inv.middle]; rfl
    | L_UPD => rw [fresh,inv.long]; rfl
  refine ⟨⟨inv.counted,logExact inv counts,?_,?_,?_,?_⟩,now⟩
  · rw [now,kept,← inv.current,fresh]
  · rw [shortKept,kept,inv.short]
  · cases tag with
    | S_UPD => contradiction
    | M_UPD => simp [slotTick,updateOneSlot,logTick,dealedAt,fresh,inv.counted]
    | L_UPD => simpa [slotTick,updateOneSlot,logTick] using inv.middle
  · cases tag with
    | S_UPD => contradiction
    | M_UPD => simpa [slotTick,updateOneSlot,logTick] using inv.long
    | L_UPD => simp [slotTick,updateOneSlot,logTick,dealedAt,fresh,inv.counted]

theorem maybeTick (inv : SlotInv dealed t ticked) (fresh : t.current = dealed) (longer : tag ≠ .S_UPD) (on : Bool) :
    SlotInv dealed (if on then slotTick tag t else t) (if on then logTick tag t ticked else ticked) ∧
      (if on then slotTick tag t else t).current = dealed := by
  cases on with
  | false => exact ⟨inv,fresh⟩
  | true => exact longerTick inv fresh longer

theorem middleLonger : UpdTag.M_UPD ≠ .S_UPD := by decide
theorem longLonger : UpdTag.L_UPD ≠ .S_UPD := by decide

theorem exactMono {later : Nat} {log : List Tick} (exact_ : Exact tag log dealed) (grown : dealed ≤ later) :
    Exact tag log later := by
  cases log with
  | nil => trivial
  | cons tick before => exact ⟨exact_.1.trans grown,exact_.2⟩

theorem dealSlot (inv : SlotInv dealed t ticked) : SlotInv (dealed + 1)
    { t with dealedOps := t.dealedOps + 1 } ticked :=
  ⟨congrArg (· + 1) inv.counted,fun tag => exactMono (inv.exact_ tag) (Nat.le_succ _),
    inv.current,inv.short,inv.middle,inv.long⟩

end

section
variable {slot : Slot} {s : HotState} {m : Metered} {myself : Myself} {tag : UpdTag} {iteration : Nat}

theorem metricOwned (owned : myself.slots slot = true) :
    (slotHotMetric myself (updTime tag) tag s).slotStatus slot = slotTick tag (s.slotStatus slot) := by
  simp [slotHotMetric,owned,slotTick]

theorem hotTickSpec (owned : myself.slots slot = true) : (hotTick myself tag s).iteration = s.iteration ∧
    (hotTick myself tag s).slotStatus slot =
      if ticks s.iteration tag then slotTick tag (s.slotStatus slot) else s.slotStatus slot := by
  unfold hotTick
  split
  · exact ⟨rfl,metricOwned owned⟩
  · exact ⟨rfl,rfl⟩

theorem ticksShort (longer : ticks iteration tag = true) : ticks iteration .S_UPD = true := by
  have multiple := of_decide_eq_true longer
  refine decide_eq_true ?_
  cases tag <;> simp only [updTime] at multiple ⊢ <;> omega

def slotTicks (iteration : Nat) (t : SlotHot) : SlotHot :=
  let short := if ticks iteration .S_UPD then slotTick .S_UPD t else t
  let middle := if ticks iteration .M_UPD then slotTick .M_UPD short else short
  if ticks iteration .L_UPD then slotTick .L_UPD middle else middle

theorem cronSlot (owned : myself.slots slot = true) :
    (clusterCron myself s).iteration = (s.iteration + 1) % 2 ^ 64 ∧
    (clusterCron myself s).slotStatus slot = slotTicks ((s.iteration + 1) % 2 ^ 64) (s.slotStatus slot) := by
  simp only [clusterCron,slotTicks,(hotTickSpec owned).1,(hotTickSpec owned).2,and_self]

theorem logOf {dealed : Nat} {t : SlotHot} {log ticked : UpdTag → List Tick} (inv : SlotInv dealed t log)
    (same : ∀ tag, ticked tag = log tag) : SlotInv dealed t ticked := funext same ▸ inv

theorem ticksInv {dealed : Nat} {t : SlotHot} {ticked : UpdTag → List Tick} (inv : SlotInv dealed t ticked) :
    SlotInv dealed (slotTicks iteration t) fun tag => (if ticks iteration tag then
      [⟨(slotTicks iteration t).hot tag,(slotTicks iteration t).dealedOps⟩] else []) ++ ticked tag := by
  cases short : ticks iteration .S_UPD with
  | false =>
    have none (tag : UpdTag) : ticks iteration tag = false := by
      cases on : ticks iteration tag with
      | false => rfl
      | true => rw [ticksShort on] at short; contradiction
    simpa [slotTicks,none] using inv
  | true =>
    obtain ⟨shortInv,shortFresh⟩ := shortTick inv
    obtain ⟨middleInv,middleFresh⟩ := maybeTick shortInv shortFresh middleLonger (ticks iteration .M_UPD)
    obtain ⟨longInv,_⟩ := maybeTick middleInv middleFresh longLonger (ticks iteration .L_UPD)
    simp only [slotTicks,short,if_true]
    refine logOf longInv fun tag => ?_
    cases middle : ticks iteration .M_UPD <;> cases long : ticks iteration .L_UPD <;> cases tag <;>
      simp [logTick,short,middle,long,slotTick,updateOneSlot]

theorem cronInv {dealed : Nat} (owned : myself.slots slot = true)
    (inv : SlotInv dealed (m.hots.slotStatus slot) m.ticked) :
    SlotInv dealed ((meteredStep slot m (.clusterCron myself)).hots.slotStatus slot)
      (meteredStep slot m (.clusterCron myself)).ticked := by
  simp only [meteredStep,hotStep,recorded,(cronSlot owned).1,(cronSlot owned).2]
  exact ticksInv inv

end

def opsOf (slot : Slot) (past : List HotEvent) : Nat :=
  past.countP fun event => match event with
    | .processCommand hashslot => decide (hashslot = slot)
    | .clusterCron _ => false

def cronsOf (past : List HotEvent) : Nat :=
  past.countP fun event => match event with
    | .processCommand _ => false
    | .clusterCron _ => true

section
variable {slot : Slot} {m : Metered} {past : List HotEvent}

def Metered.zeroed : Metered := ⟨.zeroed,fun _ => []⟩

abbrev HotRun (slot : Slot) : List HotEvent → Metered → Prop :=
  Reach (fun m event after => after = meteredStep slot m event) Metered.zeroed

theorem runInv (run : HotRun slot past m) (owned : ∀ myself, .clusterCron myself ∈ past → myself.slots slot = true) :
    SlotInv (opsOf slot past) (m.hots.slotStatus slot) m.ticked ∧ m.hots.iteration = cronsOf past % 2 ^ 64 := by
  induction run with
  | start => exact ⟨⟨rfl,fun _ => trivial,rfl,rfl,rfl,rfl⟩,rfl⟩
  | @next past m event _ _ taken ih =>
    obtain ⟨inv,iteration⟩ := ih fun myself inside => owned myself (List.mem_cons_of_mem _ inside)
    subst taken
    cases event with
    | processCommand hashslot =>
      refine ⟨?_,iteration.trans (by simp [cronsOf])⟩
      by_cases here : hashslot = slot
      · subst here
        simpa [opsOf,meteredStep,hotStep,dealOp] using dealSlot inv
      · simpa [opsOf,meteredStep,hotStep,dealOp,here,Function.update_of_ne (Ne.symm here)] using inv
    | clusterCron myself =>
      have own := owned myself List.mem_cons_self
      refine ⟨by simpa [opsOf] using cronInv own inv,?_⟩
      simp only [meteredStep,hotStep,(cronSlot own).1,iteration,cronsOf]
      simp

end

/-- What was dealt with at every tick of a tag, latest first: a tick falls in exactly the
iterations that ten times its period divides. -/
def dealtAt (slot : Slot) (tag : UpdTag) : List HotEvent → List Nat
  | [] => []
  | .processCommand _ :: past => dealtAt slot tag past
  | .clusterCron _ :: past =>
    if (cronsOf past + 1) % 2 ^ 64 % (updTime tag * 10) = 0 then opsOf slot past :: dealtAt slot tag past
    else dealtAt slot tag past

section
variable {slot : Slot} {m : Metered} {past : List HotEvent}

theorem tickLogged {dealed : Nat} {myself : Myself} (own : myself.slots slot = true)
    (inv : SlotInv dealed (m.hots.slotStatus slot) m.ticked) (tag : UpdTag) :
    ((meteredStep slot m (.clusterCron myself)).ticked tag).map Tick.dealed =
      if (m.hots.iteration + 1) % 2 ^ 64 % (updTime tag * 10) = 0 then dealed :: (m.ticked tag).map Tick.dealed
      else (m.ticked tag).map Tick.dealed := by
  have counted := (cronInv own inv).counted
  have iteration : (hotStep m.hots (.clusterCron myself)).iteration = (m.hots.iteration + 1) % 2 ^ 64 := (cronSlot own).1
  simp only [meteredStep] at counted ⊢
  rw [List.map_append,recorded,counted,iteration]
  by_cases due : (m.hots.iteration + 1) % 2 ^ 64 % (updTime tag * 10) = 0
  · rw [if_pos due,ticks,decide_eq_true due]
    rfl
  · rw [if_neg due,ticks,decide_eq_false due]
    rfl

/-- A tick is logged in every iteration in which one falls, and in no other. -/
theorem ticksLogged (run : HotRun slot past m)
    (owned : ∀ myself, .clusterCron myself ∈ past → myself.slots slot = true) (tag : UpdTag) :
    (m.ticked tag).map Tick.dealed = dealtAt slot tag past := by
  induction run with
  | start => rfl
  | @next past m event _ before taken ih =>
    have ownedBefore : ∀ myself, .clusterCron myself ∈ past → myself.slots slot = true := fun myself inside =>
      owned myself (List.mem_cons_of_mem _ inside)
    have logged := ih ownedBefore
    subst taken
    cases event with
    | processCommand hashslot => exact logged
    | clusterCron myself =>
      obtain ⟨inv,iteration⟩ := runInv before ownedBefore
      rw [tickLogged (owned myself List.mem_cons_self) inv,iteration,logged,Nat.mod_add_mod,dealtAt]

end

section
variable {tag : UpdTag} {log : List Tick} {now : Nat}

theorem exactAt {later before : List Tick} {tick : Tick} (exact_ : Exact tag (later ++ tick :: before) now) :
    tick.rate * updTime tag = countedBy tag before tick.dealed ∧ Exact tag (tick :: before) now := by
  induction later generalizing now with
  | nil => exact ⟨exact_.2.1,exact_⟩
  | cons head later ih =>
    obtain ⟨counts,rest⟩ := ih exact_.2.2
    exact ⟨counts,exactMono rest exact_.1⟩

theorem dealedLe (exact_ : Exact tag log now) : dealedAt log ≤ now := by
  cases log with
  | nil => exact Nat.zero_le _
  | cons tick before => exact exact_.1

theorem tailLe (exact_ : Exact tag log now) : dealedAt log.tail ≤ dealedAt log := by
  cases log with
  | nil => exact le_refl _
  | cons tick before => exact dealedLe exact_.2.2

theorem countedNonneg {before : List Tick} {tick : Tick} (exact_ : Exact tag (tick :: before) now) :
    0 ≤ countedBy tag before tick.dealed := by
  have latest : (dealedAt before : ℚ) ≤ tick.dealed := Nat.cast_le.mpr (dealedLe exact_.2.2)
  have earlier : (dealedAt before.tail : ℚ) ≤ dealedAt before := Nat.cast_le.mpr (tailLe exact_.2.2)
  cases tag <;> simp only [countedBy] <;> linarith

def published (tag : UpdTag) (log : List Tick) : Nat :=
  match tag with
  | .S_UPD => dealedAt log.tail
  | .M_UPD => dealedAt log
  | .L_UPD => dealedAt log

theorem publishedLe (exact_ : Exact tag log now) : published tag log ≤ now := by
  cases tag with
  | S_UPD => exact (tailLe exact_).trans (dealedLe exact_)
  | M_UPD => exact dealedLe exact_
  | L_UPD => exact dealedLe exact_

/-- The ticks of one tag count every operation at most once: the sum telescopes. -/
theorem exactSum (exact_ : Exact tag log now) : (log.map fun tick =>
    tick.rate * (updTime tag : ℚ)).sum = published tag log := by
  induction log generalizing now with
  | nil => cases tag <;> rfl
  | cons tick before ih =>
    rw [List.map_cons,List.sum_cons,ih exact_.2.2,exact_.2.1]
    cases tag <;> simp [countedBy,published,dealedAt]

end

/-- Every tick of every tag publishes what was counted; no rate is negative, and no tag
counts an operation twice. -/
theorem hotnessExact {slot : Slot} {past : List HotEvent} {m : Metered} (run : HotRun slot past m)
    (owned : ∀ myself, .clusterCron myself ∈ past → myself.slots slot = true) :
    m.hots.iteration = cronsOf past % 2 ^ 64 ∧ (m.hots.slotStatus slot).dealedOps = opsOf slot past ∧ ∀ tag,
      (∀ later tick before, m.ticked tag = later ++ tick :: before →
        tick.rate * updTime tag = countedBy tag before tick.dealed ∧ 0 ≤ tick.rate) ∧
      ((m.ticked tag).map fun tick => tick.rate * (updTime tag : ℚ)).sum ≤ (m.hots.slotStatus slot).dealedOps := by
  obtain ⟨inv,iteration⟩ := runInv run owned
  refine ⟨iteration,inv.counted,fun tag => ⟨fun later tick before shape => ?_,?_⟩⟩
  · obtain ⟨counts,rest⟩ := exactAt (shape ▸ inv.exact_ tag)
    have positive : (0 : ℚ) < updTime tag := by cases tag <;> simp [updTime]
    refine ⟨counts,?_⟩
    have weighed := countedNonneg rest
    rw [← counts] at weighed
    exact nonneg_of_mul_nonneg_left weighed positive
  · rw [exactSum (inv.exact_ tag),inv.counted]
    exact Nat.cast_le.mpr (publishedLe (inv.exact_ tag))

def allSlots : Myself := ⟨fun _ => true,16384⟩

-- Two commands on slot 5, sixty iterations, one more command and forty iterations.
def hundred : List HotEvent :=
  List.replicate 40 (.clusterCron allSlots) ++ .processCommand 5 ::
    List.replicate 60 (.clusterCron allSlots) ++ [.processCommand 5,.processCommand 5]

theorem runExists (slot : Slot) (past : List HotEvent) : ∃ m, HotRun slot past m := by
  induction past with
  | nil => exact ⟨_,.start⟩
  | cons event past ih =>
    obtain ⟨m,run⟩ := ih
    exact ⟨_,run.next rfl⟩

/-- The tick of ten seconds falls in iteration 100 and publishes three operations in ten seconds. -/
theorem hotnessExactShown : ∃ m, HotRun 5 hundred m ∧ m.hots.iteration = 100 ∧
    (m.hots.slotStatus 5).dealedOps = 3 ∧ m.ticked .M_UPD = [⟨3 / 10,3⟩] := by
  obtain ⟨m,run⟩ := runExists 5 hundred
  have owned : ∀ myself, .clusterCron myself ∈ hundred → myself.slots 5 = true := by
    intro myself inside
    have own : myself = allSlots := by simpa [hundred] using inside
    rw [own]
    rfl
  have logged : (m.ticked .M_UPD).map Tick.dealed = [3] := (ticksLogged run owned .M_UPD).trans (by decide +kernel)
  obtain ⟨iteration,counted,published⟩ := hotnessExact run owned
  refine ⟨m,run,iteration.trans (by decide +kernel),counted.trans (by decide +kernel),?_⟩
  obtain ⟨tick,alone,dealed⟩ := List.map_eq_singleton_iff.mp logged
  obtain ⟨exact_,-⟩ := (published .M_UPD).1 [] tick [] alone
  have rate : tick.rate = 3 / 10 := by
    rw [dealed] at exact_
    norm_num [countedBy,dealedAt,updTime] at exact_
    linarith
  rw [alone,← rate,← dealed]

end HpuCache.HotMetric
