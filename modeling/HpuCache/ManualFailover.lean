import HpuCache.EventRun
import Mathlib.Algebra.Order.Ring.Nat
import Mathlib.Data.List.Infix
import Mathlib.Logic.Function.Basic

/-! Manual failover: a slave asks its master to pause the clients, waits until it has read
everything up to the offset that the paused master announces, and may then be elected while the
master is still up. One clock is read by all; packets may be lost, repeated and late. -/
namespace HpuCache.ManualFailover
open EventRun

def mfTimeout : Nat := 5000
def mfPauseMult : Nat := 2

inductive PauseType where
  | off
  | write
  | all
  deriving DecidableEq, Repr

def PauseType.rank : PauseType → Nat
  | .off => 0
  | .write => 1
  | .all => 2

structure ClientPause where
  type : PauseType
  endTime : Nat

def pauseClients (p : ClientPause) (endTime : Nat) (type : PauseType) : ClientPause :=
  ⟨if type.rank > p.type.rank then type else p.type,if endTime > p.endTime then endTime else p.endTime⟩

def unpauseClients (p : ClientPause) : ClientPause := { p with type := .off }

def areClientsPaused (p : ClientPause) : Bool := p.type ≠ .off

/-- `mstime` is the time the server last looked at. -/
def checkClientPauseTimeout (mstime : Nat) (p : ClientPause) : ClientPause :=
  if areClientsPaused p = false then p else if p.endTime < mstime then unpauseClients p else p

/-- Whether a command that may replicate waits in `processCommand`. -/
def blocked (p : ClientPause) : Bool := p.type = .all || p.type = .write

structure Node where
  pause : ClientPause
  mfEnd : Nat
  mfCanStart : Bool
  mfMasterOffset : Option Nat

def resetManualFailover (mstime : Nat) (n : Node) : Node :=
  ⟨if n.mfEnd ≠ 0 then checkClientPauseTimeout mstime n.pause else n.pause,0,false,none⟩

def manualFailoverCheckTimeout (mstime now : Nat) (n : Node) : Node :=
  if n.mfEnd ≠ 0 ∧ n.mfEnd < now then resetManualFailover mstime n else n

def clusterHandleManualFailover (slaveOffset : Nat) (n : Node) : Node :=
  if n.mfEnd = 0 then n
  else if n.mfCanStart then n
  else if n.mfMasterOffset = some slaveOffset then { n with mfCanStart := true }
  else n

/-- Whether `clusterHandleSlaveFailover` goes on although the master is up. -/
def manualFailover (n : Node) : Bool := n.mfEnd ≠ 0 && n.mfCanStart

/-- A command of the replication stream; those that write nothing are PING and GETACK. -/
structure Entry where
  writes : Bool
  body : List UInt8
  some : body ≠ []
  deriving DecidableEq

def offset (stream : List Entry) : Nat := (stream.map fun e => e.body.length).sum

def writesOf (stream : List Entry) : List Entry := stream.filter Entry.writes

inductive Packet (ν : Type) where
  | mfstart (sender : ν)
  -- A PING or PONG of the master: its offset, the PAUSED flag, and when it was sent.
  | ping (receiver : ν) (offset : Nat) (paused : Bool) (sent : Nat)
  deriving DecidableEq

structure World (ν : Type) where
  now : Nat
  master : Node
  stream : List Entry
  slaves : ν → Node
  got : ν → List Entry
  -- Whether the slave was last told to fail over without asking its master.
  forced : ν → Bool
  packets : List (Packet ν)

/-- `mstime` is the clock that the server had cached. -/
inductive Event (ν : Type) where
  | tick (time : Nat)
  | write (e : Entry)
  | feed (e : Entry) (mstime : Nat)
  | clientPause (endTime : Nat) (type : PauseType)
  | clientUnpause
  | checkPause (mstime : Nat)
  | masterCron (mstime : Nat)
  | ping (slave : ν)
  | replicate (slave : ν) (entries : Nat)
  | failover (slave : ν) (force : Bool) (mstime : Nat)
  | deliver (p : Packet ν) (mstime : Nat)
  | slaveCron (slave : ν) (mstime : Nat)
  | beforeSleep (slave : ν)

section model
variable {ν : Type} [DecidableEq ν]

def World.setSlave (w : World ν) (x : ν) (n : Node) : World ν := { w with slaves := Function.update w.slaves x n }

/-- MFSTART at the master. -/
def startPause (w : World ν) (mstime : Nat) : World ν :=
  let n := resetManualFailover mstime w.master
  { w with master := { n with mfEnd := w.now + mfTimeout,
                              pause := pauseClients n.pause (w.now + mfTimeout * mfPauseMult) .write } }

/-- What a slave notes of a packet of its master. -/
def noteOffset (n : Node) (masterOffset : Nat) (paused : Bool) : Node :=
  if n.mfEnd ≠ 0 ∧ paused = true ∧ n.mfMasterOffset = none then { n with mfMasterOffset := some masterOffset } else n

def sendPing (w : World ν) (x : ν) : World ν :=
  { w with packets := .ping x (offset w.stream) (decide (w.master.mfEnd ≠ 0)) w.now :: w.packets }

/-- The PING of `replicationCron`, which is left out while a manual failover has paused the clients. -/
def feedSlaves (w : World ν) (e : Entry) (mstime : Nat) : World ν :=
  if w.master.mfEnd ≠ 0 then
    let w := { w with master := { w.master with pause := checkClientPauseTimeout mstime w.master.pause } }
    if areClientsPaused w.master.pause then w else { w with stream := w.stream ++ [e] }
  else { w with stream := w.stream ++ [e] }

/-- CLUSTER FAILOVER at a slave whose master is up. -/
def failoverCommand (w : World ν) (x : ν) (force : Bool) (mstime : Nat) : World ν :=
  let n := { resetManualFailover mstime (w.slaves x) with mfEnd := w.now + mfTimeout }
  let w := { w with forced := Function.update w.forced x force }
  if force then w.setSlave x { n with mfCanStart := true }
  else { w.setSlave x n with packets := .mfstart x :: w.packets }

def step (w : World ν) : Event ν → Option (World ν)
  | .tick time => if w.now ≤ time then some { w with now := time } else none
  | .write e => if blocked w.master.pause = true ∨ e.writes = false then none else some { w with stream := w.stream ++ [e] }
  | .feed e mstime => if e.writes = true ∨ w.now < mstime then none else some (feedSlaves w e mstime)
  | .clientPause endTime type => some { w with master := { w.master with pause := pauseClients w.master.pause endTime type } }
  | .clientUnpause => some { w with master := { w.master with pause := unpauseClients w.master.pause } }
  | .checkPause mstime =>
    if w.now < mstime then none
    else some { w with master := { w.master with pause := checkClientPauseTimeout mstime w.master.pause } }
  | .masterCron mstime =>
    if w.now < mstime then none else some { w with master := manualFailoverCheckTimeout mstime w.now w.master }
  | .ping x => some (sendPing w x)
  | .replicate x entries =>
    some { w with got := Function.update w.got x (w.stream.take ((w.got x).length + entries)) }
  | .failover x force mstime => if w.now < mstime then none else some (failoverCommand w x force mstime)
  | .deliver p mstime =>
    if p ∉ w.packets ∨ w.now < mstime then none
    else match p with
      | .mfstart x => some (sendPing (startPause w mstime) x)
      | .ping x masterOffset paused _ => some (w.setSlave x (noteOffset (w.slaves x) masterOffset paused))
  | .slaveCron x mstime =>
    if w.now < mstime then none
    else
      let n := manualFailoverCheckTimeout mstime w.now (w.slaves x)
      some (w.setSlave x (clusterHandleManualFailover (offset (w.got x)) n))
  | .beforeSleep x => some (w.setSlave x (clusterHandleManualFailover (offset (w.got x)) (w.slaves x)))

/-- Timers that are looked at in time: the master is not flagged as paused longer than it means to
be, and a slave does not take what its master sent before it was asked. -/
def Orderly (w : World ν) : Event ν → Prop
  | .clientUnpause => False
  | .ping _ => w.master.mfEnd ≠ 0 → w.now ≤ w.master.mfEnd
  | .deliver (.ping x _ true sent) _ => (w.slaves x).mfEnd ≤ sent + mfTimeout
  | _ => True

instance (w : World ν) : (event : Event ν) → Decidable (Orderly w event)
  | .clientUnpause => .isFalse id
  | .ping _ => inferInstanceAs (Decidable (_ → _))
  | .deliver (.ping _ _ true _) _ => inferInstanceAs (Decidable (_ ≤ _))
  | .deliver (.ping _ _ false _) _ | .deliver (.mfstart _) _ | .tick _ | .write _ | .feed _ _ | .clientPause _ _
  | .checkPause _ | .masterCron _ | .replicate _ _ | .failover _ _ _ | .slaveCron _ _ | .beforeSleep _ => .isTrue trivial

/-- No manual failover under way. -/
structure Settled (w : World ν) : Prop where
  master : w.master.mfEnd = 0
  slaves : ∀ x, (w.slaves x).mfEnd = 0 ∧ (w.slaves x).mfCanStart = false
  packets : w.packets = []
  got : ∀ x, w.got x <+: w.stream

end model

section streams

theorem offsetAppend (a b : List Entry) : offset (a ++ b) = offset a + offset b := by
  rw [offset,List.map_append,List.sum_append]
  rfl

theorem offsetZero {s : List Entry} (zero : offset s = 0) : s = [] := by
  cases s with
  | nil => rfl
  | cons e rest =>
    rw [offset,List.map_cons,List.sum_cons] at zero
    have long := List.length_pos_iff.mpr e.some
    omega

theorem offsetMono {a b : List Entry} (more : a <+: b) : offset a ≤ offset b := by
  obtain ⟨rest,rfl⟩ := more
  rw [offsetAppend]
  omega

theorem writesAppend (a b : List Entry) : writesOf (a ++ b) = writesOf a ++ writesOf b := List.filter_append a b

/-- Whoever has read up to an offset after which nothing was written has all writes. -/
theorem writesReached {got base rest : List Entry} (read : got <+: base ++ rest) (far : offset base ≤ offset got)
    (calm : writesOf rest = []) : writesOf got = writesOf (base ++ rest) := by
  have start : base <+: got := by
    rcases List.prefix_or_prefix_of_prefix (List.prefix_append base rest) read with ahead | behind
    · exact ahead
    · obtain ⟨more,rfl⟩ := behind
      rw [offsetAppend] at far
      rw [offsetZero (show offset more = 0 by omega),List.append_nil]
  obtain ⟨mid,rfl⟩ := start
  obtain ⟨tail,whole⟩ := read
  rw [List.append_assoc] at whole
  obtain rfl := List.append_cancel_left whole
  rw [writesAppend,List.append_eq_nil_iff] at calm
  rw [writesAppend,writesAppend,writesAppend,calm.1,calm.2,List.append_nil,List.append_nil,List.append_nil]

end streams

variable {ν : Type}

/-- Up to this time the clients stay paused, and nothing is written behind this offset. -/
def Frozen (w : World ν) (time masterOffset : Nat) : Prop :=
  w.now ≤ time → areClientsPaused w.master.pause = true ∧ time ≤ w.master.pause.endTime ∧
    ∃ base rest, w.stream = base ++ rest ∧ offset base = masterOffset ∧ writesOf rest = []

theorem Frozen.sooner {w : World ν} {time masterOffset : Nat} (frozen : Frozen w time masterOffset) {early : Nat}
    (less : early ≤ time) : Frozen w early masterOffset := by
  intro now
  obtain ⟨paused,long,kept⟩ := frozen (by omega)
  exact ⟨paused,by omega,kept⟩

/-- A pause that lasts as long as it was to last. -/
def Lasting (now : Nat) (p q : ClientPause) : Prop :=
  areClientsPaused p = true → now ≤ p.endTime → areClientsPaused q = true ∧ p.endTime ≤ q.endTime

/-- What may happen at the master: a pause ends only when its time is over, and what is sent to the slaves
meanwhile writes nothing. -/
structure Calm (w v : World ν) : Prop where
  later : w.now ≤ v.now
  pause : Lasting v.now w.master.pause v.master.pause
  stream : ∃ more, v.stream = w.stream ++ more ∧ (areClientsPaused w.master.pause = true → writesOf more = [])

theorem Calm.frozen {w v : World ν} (calm : Calm w v) {time masterOffset : Nat} (frozen : Frozen w time masterOffset) :
    Frozen v time masterOffset := by
  intro now
  obtain ⟨paused,long,base,rest,whole,size,quiet⟩ := frozen (Nat.le_trans calm.later now)
  obtain ⟨still,longer⟩ := calm.pause paused (Nat.le_trans now long)
  obtain ⟨more,grown,silent⟩ := calm.stream
  refine ⟨still,Nat.le_trans long longer,base,rest ++ more,?_,size,?_⟩
  · rw [grown,whole,List.append_assoc]
  · rw [writesAppend,quiet,silent paused]
    rfl

section pauses

theorem blockedPaused {p : ClientPause} (free : blocked p = false) : areClientsPaused p = false := by
  obtain ⟨type,endTime⟩ := p
  cases type with
  | off => rfl
  | write => exact absurd free Bool.true_eq_false.mp
  | all => exact absurd free Bool.true_eq_false.mp

theorem lastingSame (now : Nat) (p : ClientPause) : Lasting now p p := fun paused _ => ⟨paused,Nat.le_refl _⟩

theorem Lasting.then {now : Nat} {p q r : ClientPause} (first : Lasting now p q) (second : Lasting now q r) :
    Lasting now p r := by
  intro paused long
  obtain ⟨still,longer⟩ := first paused long
  obtain ⟨last,longest⟩ := second still (Nat.le_trans long longer)
  exact ⟨last,Nat.le_trans longer longest⟩

theorem lastingCheck {mstime now : Nat} (past : mstime ≤ now) (p : ClientPause) :
    Lasting now p (checkClientPauseTimeout mstime p) := by
  intro paused long
  rw [checkClientPauseTimeout,if_neg (by rw [paused]; decide),if_neg (by omega)]
  exact ⟨paused,Nat.le_refl _⟩

theorem lastingReset {mstime now : Nat} (past : mstime ≤ now) (n : Node) :
    Lasting now n.pause (resetManualFailover mstime n).pause := by
  simp only [resetManualFailover]
  split
  · exact lastingCheck past n.pause
  · exact lastingSame now n.pause

theorem pausedUntil (p : ClientPause) (endTime : Nat) (type : PauseType) :
    p.endTime ≤ (pauseClients p endTime type).endTime ∧ endTime ≤ (pauseClients p endTime type).endTime := by
  simp only [pauseClients]
  split <;> omega

theorem lastingMore (now : Nat) (p : ClientPause) (endTime : Nat) (type : PauseType) :
    Lasting now p (pauseClients p endTime type) := by
  intro paused long
  refine ⟨?_,(pausedUntil p endTime type).1⟩
  rw [areClientsPaused,decide_eq_true_iff] at paused ⊢
  simp only [pauseClients]
  split
  · rename_i more
    rintro rfl
    exact absurd more (Nat.not_lt_zero _)
  · exact paused

theorem nowPaused (p : ClientPause) (endTime : Nat) : areClientsPaused (pauseClients p endTime .write) = true := by
  obtain ⟨type,since⟩ := p
  cases type <;> rfl

end pauses

section masters

theorem calmPause {w v : World ν} (now : v.now = w.now) (pause : Lasting w.now w.master.pause v.master.pause)
    (stream : v.stream = w.stream) : Calm w v where
  later := Nat.le_of_eq now.symm
  pause := by rw [now]; exact pause
  stream := ⟨[],by rw [stream,List.append_nil],fun _ => rfl⟩

theorem calmSame {w v : World ν} (now : v.now = w.now) (master : v.master = w.master) (stream : v.stream = w.stream) :
    Calm w v := by
  refine calmPause now ?_ stream
  rw [master]
  exact lastingSame _ _

theorem timeoutSame {mstime now : Nat} (n : Node) :
    manualFailoverCheckTimeout mstime now n = n ∨ manualFailoverCheckTimeout mstime now n = resetManualFailover mstime n := by
  rw [manualFailoverCheckTimeout]
  split
  · exact .inr rfl
  · exact .inl rfl

theorem calmFeed {w : World ν} {e : Entry} {mstime : Nat} (idle : e.writes = false) (past : mstime ≤ w.now) :
    Calm w (feedSlaves w e mstime) := by
  have silent : writesOf [e] = [] := by rw [writesOf,List.filter_cons_of_neg (by rw [idle]; decide),List.filter_nil]
  simp only [feedSlaves]
  split
  · split
    · exact calmPause rfl (lastingCheck past _) rfl
    · exact ⟨Nat.le_refl _,lastingCheck past _,[e],rfl,fun _ => silent⟩
  · exact ⟨Nat.le_refl _,lastingSame _ _,[e],rfl,fun _ => silent⟩

variable [DecidableEq ν]

theorem calmStep {w v : World ν} {event : Event ν} (orderly : Orderly w event) (taken : step w event = some v) : Calm w v := by
  cases event with
  | tick time =>
    rw [step] at taken
    split at taken
    · rename_i later
      obtain rfl := Option.some.inj taken
      exact ⟨later,lastingSame _ _,[],(List.append_nil _).symm,fun _ => rfl⟩
    · contradiction
  | write e =>
    rw [step] at taken
    split at taken
    · contradiction
    · rename_i free
      obtain rfl := Option.some.inj taken
      rw [not_or,Bool.not_eq_true] at free
      refine ⟨Nat.le_refl _,lastingSame _ _,[e],rfl,fun paused => ?_⟩
      rw [blockedPaused free.1] at paused
      contradiction
  | feed e mstime =>
    rw [step] at taken
    split at taken
    · contradiction
    · rename_i fine
      obtain rfl := Option.some.inj taken
      rw [not_or,Bool.not_eq_true,Nat.not_lt] at fine
      exact calmFeed fine.1 fine.2
  | clientPause endTime type =>
    obtain rfl := Option.some.inj taken
    exact calmPause rfl (lastingMore _ _ _ _) rfl
  | clientUnpause => exact absurd orderly id
  | checkPause mstime =>
    rw [step] at taken
    split at taken
    · contradiction
    · rename_i past
      obtain rfl := Option.some.inj taken
      exact calmPause rfl (lastingCheck (Nat.le_of_not_lt past) _) rfl
  | masterCron mstime =>
    rw [step] at taken
    split at taken
    · contradiction
    · rename_i past
      obtain rfl := Option.some.inj taken
      refine calmPause rfl ?_ rfl
      rcases @timeoutSame mstime w.now w.master with same | reset
      · simp only [same]
        exact lastingSame _ _
      · simp only [reset]
        exact lastingReset (Nat.le_of_not_lt past) _
  | ping x =>
    obtain rfl := Option.some.inj taken
    exact calmSame rfl rfl rfl
  | replicate x entries =>
    obtain rfl := Option.some.inj taken
    exact calmSame rfl rfl rfl
  | failover x force mstime =>
    rw [step] at taken
    split at taken
    · contradiction
    · obtain rfl := Option.some.inj taken
      cases force <;> exact calmSame rfl rfl rfl
  | deliver p mstime =>
    simp only [step] at taken
    split at taken
    · contradiction
    · rename_i fine
      rw [not_or,Nat.not_lt] at fine
      cases p with
      | mfstart x =>
        obtain rfl := Option.some.inj taken
        exact calmPause rfl ((lastingReset fine.2 w.master).then (lastingMore _ _ _ _)) rfl
      | ping x masterOffset paused sent =>
        obtain rfl := Option.some.inj taken
        exact calmSame rfl rfl rfl
  | slaveCron x mstime =>
    rw [step] at taken
    split at taken
    · contradiction
    · obtain rfl := Option.some.inj taken
      exact calmSame rfl rfl rfl
  | beforeSleep x =>
    obtain rfl := Option.some.inj taken
    exact calmSame rfl rfl rfl

end masters

section slaves

/-- What a slave relies on: the offset it noted is the last one for the time of its attempt, and an
attempt that was not forced starts behind it. -/
structure Relies (w : World ν) (n : Node) (got : List Entry) (forced : Bool) : Prop where
  noted : ∀ o, n.mfEnd ≠ 0 → n.mfMasterOffset = some o → Frozen w n.mfEnd o
  reached : forced = false → n.mfCanStart = true → ∃ o, n.mfMasterOffset = some o ∧ o ≤ offset got

theorem Relies.calm {w v : World ν} {n : Node} {got more : List Entry} {forced : Bool} (relies : Relies w n got forced)
    (calm : Calm w v) (further : got <+: more) : Relies v n more forced where
  noted o busy known := calm.frozen (relies.noted o busy known)
  reached asked can := by
    obtain ⟨o,known,far⟩ := relies.reached asked can
    exact ⟨o,known,Nat.le_trans far (offsetMono further)⟩

theorem Relies.still {w v : World ν} {n : Node} {got : List Entry} {forced : Bool} (relies : Relies w n got forced)
    (now : v.now = w.now) (master : v.master = w.master) (stream : v.stream = w.stream) : Relies v n got forced :=
  relies.calm (calmSame now master stream) (List.prefix_refl got)

theorem reliesReset (w : World ν) (mstime ends : Nat) (n : Node) (got : List Entry) (forced : Bool) :
    Relies w { resetManualFailover mstime n with mfEnd := ends } got forced :=
  ⟨fun _ _ known => by contradiction,fun _ can => by contradiction⟩

theorem reliesTimeout {w : World ν} {n : Node} {got : List Entry} {forced : Bool} (relies : Relies w n got forced)
    (mstime now : Nat) : Relies w (manualFailoverCheckTimeout mstime now n) got forced := by
  rcases @timeoutSame mstime now n with same | reset
  · rw [same]
    exact relies
  · rw [reset]
    exact reliesReset w mstime 0 n got forced

theorem reliesHandle {w : World ν} {n : Node} {got : List Entry} {forced : Bool} (relies : Relies w n got forced) :
    Relies w (clusterHandleManualFailover (offset got) n) got forced := by
  simp only [clusterHandleManualFailover]
  split
  · exact relies
  · split
    · exact relies
    · split
      · rename_i equal
        exact ⟨relies.noted,fun _ _ => ⟨offset got,equal,Nat.le_refl _⟩⟩
      · exact relies

theorem reliesNote {w : World ν} {n : Node} {got : List Entry} {forced : Bool} (relies : Relies w n got forced)
    {masterOffset : Nat} {paused : Bool} (frozen : paused = true → Frozen w n.mfEnd masterOffset) :
    Relies w (noteOffset n masterOffset paused) got forced := by
  rw [noteOffset]
  split
  · rename_i fresh
    refine ⟨?_,fun asked can => ?_⟩
    · rintro o busy ⟨⟩
      exact frozen fresh.2.1
    · obtain ⟨o,known,far⟩ := relies.reached asked can
      rw [fresh.2.2] at known
      contradiction
  · exact relies

/-- What a paused master announces stays the last offset until a slave's attempt is over. -/
structure Sound (w : World ν) : Prop where
  read : ∀ x, w.got x <+: w.stream
  pause : w.master.mfEnd ≠ 0 → w.now ≤ w.master.mfEnd + mfTimeout →
    areClientsPaused w.master.pause = true ∧ w.master.mfEnd + mfTimeout ≤ w.master.pause.endTime
  sent : ∀ x o time, .ping x o true time ∈ w.packets → Frozen w (time + mfTimeout) o
  relies : ∀ x, Relies w (w.slaves x) (w.got x) (w.forced x)

theorem settledSound {w : World ν} (settled : Settled w) : Sound w where
  read := settled.got
  pause busy := absurd settled.master busy
  sent x o time mem := by
    rw [settled.packets] at mem
    contradiction
  relies x := ⟨fun _ busy => absurd (settled.slaves x).1 busy,fun _ can => by
    rw [(settled.slaves x).2] at can
    contradiction⟩

/-- A master that is flagged as paused announces its last offset. -/
theorem frozenPing {w : World ν} (sound : Sound w) (timely : w.master.mfEnd ≠ 0 → w.now ≤ w.master.mfEnd)
    (flagged : w.master.mfEnd ≠ 0) : Frozen w (w.now + mfTimeout) (offset w.stream) := by
  intro _
  have inTime := timely flagged
  obtain ⟨paused,long⟩ := sound.pause flagged (by omega)
  exact ⟨paused,by omega,w.stream,[],(List.append_nil _).symm,rfl,rfl⟩

theorem Sound.calm {w v : World ν} (sound : Sound w) (calm : Calm w v)
    (mfEnd : v.master.mfEnd = w.master.mfEnd ∨ v.master.mfEnd = 0) (packets : v.packets = w.packets)
    (slaves : v.slaves = w.slaves) (forced : v.forced = w.forced) (more : ∀ x, w.got x <+: v.got x)
    (read : ∀ x, v.got x <+: v.stream) : Sound v where
  read := read
  pause busy inTime := by
    rcases mfEnd with same | none
    · rw [same] at busy inTime ⊢
      obtain ⟨paused,long⟩ := sound.pause busy (Nat.le_trans calm.later inTime)
      obtain ⟨still,longer⟩ := calm.pause paused (Nat.le_trans inTime long)
      exact ⟨still,Nat.le_trans long longer⟩
    · exact absurd none busy
  sent x o time mem := by
    rw [packets] at mem
    exact calm.frozen (sound.sent x o time mem)
  relies x := by
    rw [slaves,forced]
    exact (sound.relies x).calm calm (more x)

theorem soundGrown {w v : World ν} (sound : Sound w) (calm : Calm w v)
    (mfEnd : v.master.mfEnd = w.master.mfEnd ∨ v.master.mfEnd = 0) (packets : v.packets = w.packets)
    (slaves : v.slaves = w.slaves) (forced : v.forced = w.forced) (got : v.got = w.got) : Sound v := by
  refine sound.calm calm mfEnd packets slaves forced ?_ ?_ <;> intro x <;> rw [got]
  obtain ⟨more,grown,silent⟩ := calm.stream
  rw [grown]
  exact (sound.read x).trans (List.prefix_append _ _)

theorem soundSend {w : World ν} (sound : Sound w) (timely : w.master.mfEnd ≠ 0 → w.now ≤ w.master.mfEnd) (x : ν) :
    Sound (sendPing w x) where
  read := sound.read
  pause := sound.pause
  sent y o time mem := by
    have frozen := frozenPing sound timely
    rcases List.mem_cons.mp mem with now | before
    · obtain ⟨rfl,rfl,flagged,rfl⟩ := Packet.ping.inj now
      exact frozen (of_decide_eq_true flagged.symm)
    · exact sound.sent y o time before
  relies y := (sound.relies y).still rfl rfl rfl

theorem soundStart {w : World ν} (sound : Sound w) {mstime : Nat} (past : mstime ≤ w.now) : Sound (startPause w mstime) where
  read := sound.read
  pause _ _ := ⟨nowPaused _ _,(pausedUntil _ _ _).2⟩
  sent x o time mem := by
    have calm : Calm w (startPause w mstime) := calmPause rfl ((lastingReset past w.master).then (lastingMore _ _ _ _)) rfl
    exact calm.frozen (sound.sent x o time mem)
  relies x := by
    have calm : Calm w (startPause w mstime) := calmPause rfl ((lastingReset past w.master).then (lastingMore _ _ _ _)) rfl
    exact (sound.relies x).calm calm (List.prefix_refl _)

variable [DecidableEq ν]

theorem soundSlave {w : World ν} (sound : Sound w) {x : ν} {n : Node} (relies : Relies w n (w.got x) (w.forced x)) :
    Sound (w.setSlave x n) where
  read := sound.read
  pause := sound.pause
  sent := sound.sent
  relies y := by
    by_cases same : y = x
    · subst same
      simp only [World.setSlave,Function.update_self]
      exact relies.still rfl rfl rfl
    · simp only [World.setSlave,Function.update_of_ne same]
      exact (sound.relies y).still rfl rfl rfl

theorem soundFailover {w : World ν} (sound : Sound w) (x : ν) (force : Bool) (mstime : Nat) :
    Sound (failoverCommand w x force mstime) := by
  have told : Sound ({ w with forced := Function.update w.forced x force }.setSlave x
      { resetManualFailover mstime (w.slaves x) with mfEnd := w.now + mfTimeout, mfCanStart := force }) := by
    refine ⟨sound.read,sound.pause,sound.sent,fun y => ?_⟩
    by_cases same : y = x
    · subst same
      simp only [World.setSlave,Function.update_self]
      refine ⟨fun _ _ known => by contradiction,fun asked can => ?_⟩
      rw [asked] at can
      contradiction
    · simp only [World.setSlave,Function.update_of_ne same]
      exact (sound.relies y).still rfl rfl rfl
  cases force with
  | true => exact told
  | false =>
    refine ⟨told.read,told.pause,fun y o time mem => ?_,fun y => (told.relies y).still rfl rfl rfl⟩
    rcases List.mem_cons.mp mem with now | before
    · contradiction
    · exact told.sent y o time before

theorem soundStep {w v : World ν} {event : Event ν} (sound : Sound w) (orderly : Orderly w event)
    (taken : step w event = some v) : Sound v := by
  have calm := calmStep orderly taken
  cases event with
  | tick time =>
    simp only [step,Option.ite_none_right_eq_some,Option.some.injEq] at taken
    obtain ⟨later,rfl⟩ := taken
    exact soundGrown sound calm (.inl rfl) rfl rfl rfl rfl
  | write e =>
    simp only [step,Option.ite_none_left_eq_some,Option.some.injEq] at taken
    obtain ⟨free,rfl⟩ := taken
    exact soundGrown sound calm (.inl rfl) rfl rfl rfl rfl
  | feed e mstime =>
    simp only [step,Option.ite_none_left_eq_some,Option.some.injEq] at taken
    obtain ⟨fine,rfl⟩ := taken
    revert calm
    simp only [feedSlaves]
    split
    · split <;> exact fun calm => soundGrown sound calm (.inl rfl) rfl rfl rfl rfl
    · exact fun calm => soundGrown sound calm (.inl rfl) rfl rfl rfl rfl
  | clientPause endTime type =>
    obtain rfl := Option.some.inj taken
    exact soundGrown sound calm (.inl rfl) rfl rfl rfl rfl
  | clientUnpause => exact absurd orderly id
  | checkPause mstime =>
    simp only [step,Option.ite_none_left_eq_some,Option.some.injEq] at taken
    obtain ⟨past,rfl⟩ := taken
    exact soundGrown sound calm (.inl rfl) rfl rfl rfl rfl
  | masterCron mstime =>
    simp only [step,Option.ite_none_left_eq_some,Option.some.injEq] at taken
    obtain ⟨past,rfl⟩ := taken
    refine soundGrown sound calm ?_ rfl rfl rfl rfl
    rcases @timeoutSame mstime w.now w.master with same | reset
    · exact .inl (congrArg Node.mfEnd same)
    · exact .inr (congrArg Node.mfEnd reset)
  | ping x =>
    obtain rfl := Option.some.inj taken
    exact soundSend sound orderly x
  | replicate x entries =>
    obtain rfl := Option.some.inj taken
    refine sound.calm calm (.inl rfl) rfl rfl rfl (fun y => ?_) fun y => ?_
    · by_cases same : y = x
      · subst same
        simp only [Function.update_self]
        obtain ⟨tail,whole⟩ := sound.read y
        rw [← whole,List.take_length_add_append]
        exact List.prefix_append _ _
      · simp only [Function.update_of_ne same]
        exact List.prefix_refl _
    · by_cases same : y = x
      · subst same
        simp only [Function.update_self]
        exact List.take_prefix _ _
      · simp only [Function.update_of_ne same]
        exact sound.read y
  | failover x force mstime =>
    simp only [step,Option.ite_none_left_eq_some,Option.some.injEq] at taken
    obtain ⟨past,rfl⟩ := taken
    exact soundFailover sound x force mstime
  | deliver p mstime =>
    simp only [step] at taken
    split at taken
    · contradiction
    · rename_i fine
      rw [not_or,Decidable.not_not,Nat.not_lt] at fine
      cases p with
      | mfstart x =>
        obtain rfl := Option.some.inj taken
        exact soundSend (soundStart sound fine.2) (fun _ => Nat.le_add_right _ _) x
      | ping x masterOffset paused sent =>
        obtain rfl := Option.some.inj taken
        refine soundSlave sound (reliesNote (sound.relies x) fun flagged => ?_)
        subst flagged
        exact (sound.sent x masterOffset sent fine.1).sooner orderly
  | slaveCron x mstime =>
    simp only [step,Option.ite_none_left_eq_some,Option.some.injEq] at taken
    obtain ⟨past,rfl⟩ := taken
    exact soundSlave sound (reliesHandle (reliesTimeout (sound.relies x) mstime w.now))
  | beforeSleep x =>
    obtain rfl := Option.some.inj taken
    exact soundSlave sound (reliesHandle (sound.relies x))

/-- A slave that may be elected by a manual failover, and was not forced to, has every write that its
master executed, and the master will execute none before the time of the attempt is over. -/
theorem manualFailoverLossless {start w : World ν} (settled : Settled start) {past : List (Event ν)}
    (run : Reach (Guarded Orderly (Takes step)) start past w) {x : ν} (asked : w.forced x = false)
    (may : manualFailover (w.slaves x) = true) (inTime : w.now ≤ (w.slaves x).mfEnd) :
    writesOf (w.got x) = writesOf w.stream ∧ areClientsPaused w.master.pause = true ∧
      (w.slaves x).mfEnd ≤ w.master.pause.endTime := by
  have sound : Sound w := reachInvariant (settledSound settled)
    (fun {_ _ _} before taken => soundStep before taken.1 taken.2) run
  rw [manualFailover,Bool.and_eq_true,decide_eq_true_iff] at may
  obtain ⟨o,known,far⟩ := (sound.relies x).reached asked may.2
  obtain ⟨paused,long,base,rest,whole,size,silent⟩ := (sound.relies x).noted o may.1 known inTime
  refine ⟨?_,paused,long⟩
  have read := sound.read x
  rw [whole] at read ⊢
  exact writesReached read (by omega) silent

def idle : Node := ⟨⟨.off,0⟩,0,false,none⟩
def setKey : Entry := ⟨true,[83,69,84],by decide⟩

/-- A master with two slaves that have read nothing yet. -/
def pair : World Bool := ⟨0,idle,[setKey],fun _ => idle,fun _ => [],fun _ => false,[]⟩

theorem pairSettled : Settled pair := ⟨rfl,fun _ => ⟨rfl,rfl⟩,rfl,fun _ => List.nil_prefix⟩

def rehearsal : List (Event Bool) :=
  [.failover true false 0,.tick 10,.write setKey,.deliver (.mfstart true) 10,.deliver (.ping true 6 true 10) 10,
    .replicate true 2,.beforeSleep true]

def electable (w : World Bool) : Bool :=
  decide (w.forced true = false ∧ manualFailover (w.slaves true) = true ∧ w.now ≤ (w.slaves true).mfEnd) &&
    decide ((w.slaves true).mfEnd = 5000 ∧ writesOf w.stream = [setKey,setKey])

theorem manualFailoverLosslessMet : ∃ w : World Bool, writesOf (w.got true) = [setKey,setKey] ∧
    areClientsPaused w.master.pause = true ∧ 5000 ≤ w.master.pause.endTime := by
  have checked (w : World Bool) (event : Event Bool) (held : decide (Orderly w event) = true) : Orderly w event :=
    of_decide_eq_true held
  obtain ⟨w,run,shown⟩ := @replayShown _ _ step pair rehearsal _ _ electable checked rfl
  simp only [electable,Bool.and_eq_true,decide_eq_true_iff] at shown
  obtain ⟨⟨asked,may,inTime⟩,ends,whole⟩ := shown
  have lossless := manualFailoverLossless pairSettled run asked may inTime
  rw [whole,ends] at lossless
  exact ⟨w,lossless⟩

end slaves

end HpuCache.ManualFailover
