import HpuCache.ByteText
import HpuCache.KeyedDict

/-! MIGRATE with keys that expire: the keys and their values stand in two arrays, the keys that
have expired when they are serialised leave the first array only, and a connection that fails
before its first reply is tried once more with the arrays as they are then. -/
namespace HpuCache.MigrateRetry
open ByteText KeyedDict

variable {Value : Type}

/-- A value and when it expires, in milliseconds; -1 is never. -/
structure Timed (Value : Type) where
  value : Value
  expire : Int

abbrev Db (Value : Type) := Dict (Prod.fst : Bytes × Timed Value → Bytes)

structure Call where
  keys : List Bytes
  copy : Bool
  replace : Bool
  password : Bool
  -- The clock of the lookups, which stands still during a command.
  start : Int
  slave : Bool
  -- Clients are paused, so expired keys are not removed.
  paused : Bool

/-- One attempt; a reply line that is read is an error or not. -/
structure Attempt where
  connected : Bool
  selects : Bool
  -- The clock at the turn of each key.
  now : Nat → Int
  -- The write fails when the requests of so many keys have gone out.
  write : Option Nat
  auth : Option Bool
  select : Option Bool
  restores : Nat → Option Bool
  -- The failed operation has timed out.
  timedOut : Bool

structure Restore (Value : Type) where
  key : Bytes
  ttl : Int
  value : Value
  replace : Bool
  deriving DecidableEq, Repr

inductive ErrorLine where
  | auth
  | select
  | restore (j : Nat)
  deriving DecidableEq, Repr

inductive Reply where
  | nokey
  | ok
  | unreachable
  | ioerr (writing : Bool)
  | target (line : ErrorLine)
  deriving DecidableEq, Repr

def getExpire (db : Db Value) (key : Bytes) : Int := ((db.find key).map fun e => e.2.expire).getD (-1)

def keyIsExpired (start : Int) (db : Db Value) (key : Bytes) : Bool :=
  let when_ := getExpire db key
  if when_ < 0 then false else decide (start > when_)

def lookupKeyRead (call : Call) (db : Db Value) (key : Bytes) : Db Value × Option Value :=
  -- A replica leaves expired keys to its master, and MIGRATE is no read-only command.
  if keyIsExpired call.start db key && !call.slave then (if call.paused then db else db.delete key,none)
  else (db,(db.find key).map fun e => e.2.value)

def lookupKeys (call : Call) : List Bytes → Db Value → Db Value × List (Bytes × Value)
  | [], db => (db,[])
  | key :: rest, db =>
    let found := lookupKeyRead call db key
    let later := lookupKeys call rest found.1
    match found.2 with
    | none => later
    | some value => (later.1,(key,value) :: later.2)

/-- The time to live of a key; `none` when it has expired. -/
def ttlOf (db : Db Value) (key : Bytes) (now : Int) : Option Int :=
  let expireat := getExpire db key
  if expireat ≠ -1 then
    let ttl := expireat - now
    if ttl < 0 then none else some (if ttl < 1 then 1 else ttl)
  else some 0

/-- The loop over the arrays `kv` and `ov`: the j-th key goes with the j-th object. -/
def serialise (replace : Bool) (db : Db Value) (now : Nat → Int) : Nat → List Bytes → List Value → List (Restore Value)
  | j, key :: kv, value :: ov =>
    match ttlOf db key (now j) with
    | none => serialise replace db now (j + 1) kv ov
    | some ttl => ⟨key,ttl,value,replace⟩ :: serialise replace db now (j + 1) kv ov
  | _, _, _ => []

structure Replies (Value : Type) where
  db : Db Value
  -- The arguments of the DEL that takes the place of the command.
  deleted : List Bytes
  error : Option ErrorLine
  socketError : Bool
  -- Where the loop has stopped.
  position : Nat

/-- One reply line; `early` is the error line of AUTH or SELECT. -/
def readReply (copy : Bool) (early : Option ErrorLine) (j : Nat) (bad : Bool) (key : Bytes) (r : Replies Value) :
    Replies Value :=
  if early.isSome || bad then { r with error := r.error <|> early <|> some (.restore j) }
  else if copy then r
  else { r with db := r.db.delete key, deleted := r.deleted ++ [key] }

def readReplies (copy : Bool) (early : Option ErrorLine) (lines : Nat → Option Bool) :
    Nat → List Bytes → Replies Value → Replies Value
  | j, [], r => { r with position := j }
  | j, key :: kv, r =>
    match lines j with
    | none => { r with socketError := true, position := j }
    | some bad => readReplies copy early lines (j + 1) kv (readReply copy early j bad key r)

structure Tried (Value : Type) where
  sent : List (Restore Value)
  -- The keys that the attempt leaves in the array.
  kv : List Bytes
  db : Db Value
  deleted : List Bytes
  reply : Reply
  retry : Bool

/-- An error of AUTH or SELECT, which counts against every reply. -/
def earlyLine (call : Call) (a : Attempt) : Option ErrorLine :=
  if call.password && a.auth = some true then some .auth
  else if a.selects && a.select = some true then some .select else none

def attempt (call : Call) (a : Attempt) (mayRetry : Bool) (kv : List Bytes) (ov : List Value)
    (db : Db Value) : Tried Value :=
  if !a.connected then ⟨[],kv,db,[],.unreachable,false⟩
  else
    let requests := serialise call.replace db a.now 0 kv ov
    let kv' := requests.map Restore.key
    let broken (sent : List (Restore Value)) (writing : Bool) : Tried Value :=
      ⟨sent,kv',db,[],.ioerr writing,mayRetry && !a.timedOut⟩
    -- An empty buffer is not written.
    match if requests.isEmpty && !call.password && !a.selects then none else a.write with
    | some n => broken (serialise call.replace db a.now 0 (kv.take n) ov) true
    | none =>
      if call.password && a.auth.isNone || a.selects && a.select.isNone then broken requests false
      else
        let r := readReplies call.copy (earlyLine call a) a.restores 0 kv' ⟨db,[],none,false,0⟩
        if r.error.isNone && r.socketError && r.position = 0 && mayRetry && !a.timedOut then broken requests false
        else
          match r.error with
          | some line => ⟨requests,kv',r.db,r.deleted,.target line,false⟩
          | none => ⟨requests,kv',r.db,r.deleted,if r.socketError then .ioerr false else .ok,false⟩

structure Outcome (Value : Type) where
  db : Db Value
  -- The attempts, and the requests that each has sent.
  attempts : List (Attempt × List (Restore Value))
  deleted : List Bytes
  reply : Reply

/-- The first attempt and the retry after it, which finds the array of the objects as it was. -/
def migrateCommand (call : Call) (first second : Attempt) (db : Db Value) : Outcome Value :=
  let looked := lookupKeys call call.keys db
  if looked.2.isEmpty then ⟨looked.1,[],[],.nokey⟩
  else
    let ov := looked.2.map Prod.snd
    let t := attempt call first true (looked.2.map Prod.fst) ov looked.1
    if t.retry then
      let again := attempt call second false t.kv ov t.db
      ⟨again.db,[(first,t.sent),(second,again.sent)],again.deleted,again.reply⟩
    else ⟨t.db,[(first,t.sent)],t.deleted,t.reply⟩

/-- The target has answered the j-th request of an attempt, and neither it nor AUTH or SELECT is an error. -/
def Acked (call : Call) (a : Attempt) (j : Nat) : Prop :=
  a.write = none ∧ (call.password = true → a.auth = some false) ∧ (a.selects = true → a.select = some false) ∧
    (∀ i < j, a.restores i ≠ none) ∧ a.restores j = some false

def AckedKey (call : Call) (attempts : List (Attempt × List (Restore Value))) (key : Bytes) : Prop :=
  ∃ t ∈ attempts, ∃ j q, t.2[j]? = some q ∧ q.key = key ∧ Acked call t.1 j

/-- A request for a key that is there, with its value and the rest of its time at some turn. -/
def Own (db : Db Value) (now : Nat → Int) (q : Restore Value) : Prop :=
  ∃ timed i, (q.key,timed) ∈ db.entries ∧ q.value = timed.value ∧
    (timed.expire = -1 ∧ q.ttl = 0 ∨ timed.expire ≠ -1 ∧ now i ≤ timed.expire ∧ q.ttl = max 1 (timed.expire - now i))

/-- An expired key that a lookup removes. -/
def Evicted (call : Call) (keys : List Bytes) (e : Bytes × Timed Value) : Prop :=
  e.1 ∈ keys ∧ call.slave = false ∧ call.paused = false ∧ 0 ≤ e.2.expire ∧ e.2.expire < call.start

/-- A request has the value and the time of its key; the source loses the keys that are acknowledged, and no
other but expired ones; and OK means that what was sent is acknowledged, or has expired at its turn in the retry. -/
structure Faithful (call : Call) (db : Db Value) (out : Outcome Value) : Prop where
  own : ∀ t ∈ out.attempts, ∀ q ∈ t.2, Own db t.1.now q
  deleted : ∀ e, e ∈ out.db.entries ↔
    e ∈ db.entries ∧ ¬ Evicted call call.keys e ∧ ¬ (call.copy = false ∧ AckedKey call out.attempts e.1)
  -- The j-th request of the first attempt has its turn as the j-th key of the retry.
  ok : out.reply = .ok → ∀ t ∈ out.attempts, ∀ j q, t.2[j]? = some q →
    AckedKey call out.attempts q.key ∨
      ∃ u, out.attempts = [t,u] ∧ ttlOf (lookupKeys call call.keys db).1 q.key (u.1.now j) = none

def unexpired (db : Db Value) (now : Nat → Int) : Nat → List (Bytes × Value) → List (Bytes × Value)
  | _, [] => []
  | j, e :: rest =>
    if (ttlOf db e.1 (now j)).isSome then e :: unexpired db now (j + 1) rest else unexpired db now (j + 1) rest

/-- The connection fails before a reply to a RESTORE is read. -/
def Failing (call : Call) (a : Attempt) : Prop :=
  a.write ≠ none ∨ call.password = true ∧ a.auth = none ∨ a.selects = true ∧ a.select = none ∨ a.restores 0 = none

def Retried (call : Call) (first : Attempt) : Prop :=
  first.connected = true ∧ first.timedOut = false ∧ Failing call first

/-- The objects that stand at the places of the keys that the retry sends are those of the keys. -/
def InPlace (call : Call) (first second : Attempt) (db : Db Value) : Prop :=
  ∀ i e f, (unexpired (lookupKeys call call.keys db).1 first.now 0 (lookupKeys call call.keys db).2)[i]? = some e →
    (lookupKeys call call.keys db).2[i]? = some f → (∀ n, second.write = some n → i < n) →
    ttlOf (lookupKeys call call.keys db).1 e.1 (second.now i) ≠ none → f.2 = e.2

theorem failingSilent {call : Call} {a : Attempt} (failing : Failing call a) (j : Nat) : ¬ Acked call a j := by
  rintro ⟨written,auth,select,before,answered⟩
  rcases failing with write | ⟨password,unread⟩ | ⟨selects,unread⟩ | unread
  · exact write written
  · simp [auth password] at unread
  · simp [select selects] at unread
  · cases j with
    | zero => simp [answered] at unread
    | succ j => exact before 0 j.succ_pos unread

section lookups
variable {call : Call} {db : Db Value} {keys : List Bytes} {e : Bytes × Timed Value}

theorem expireOf (here : e ∈ db.entries) : getExpire db e.1 = e.2.expire := by
  rw [getExpire,Dict.findIff.mpr ⟨here,rfl⟩]
  rfl

theorem expiredOf (here : e ∈ db.entries) :
    keyIsExpired call.start db e.1 = true ↔ 0 ≤ e.2.expire ∧ e.2.expire < call.start := by
  simp [keyIsExpired,expireOf here]

theorem readEntries (key : Bytes) :
    e ∈ (lookupKeyRead call db key).1.entries ↔ e ∈ db.entries ∧ ¬ Evicted call [key] e := by
  unfold lookupKeyRead
  split
  · rename_i evicts
    obtain ⟨expired,master⟩ : keyIsExpired call.start db key = true ∧ call.slave = false := by simpa using evicts
    cases paused : call.paused with
    | true => simp [Evicted,paused]
    | false =>
      simp only [Bool.false_eq_true,if_false,Dict.memDelete]
      refine and_congr_right fun here => not_congr ⟨?_,fun evicted => List.mem_singleton.mp evicted.1⟩
      rintro rfl
      exact ⟨List.mem_singleton.mpr rfl,master,paused,(expiredOf here).mp expired⟩
  · rename_i stays
    refine ⟨fun here => ⟨here,fun evicted => stays ?_⟩,And.left⟩
    obtain ⟨inside,master,_,old⟩ := evicted
    obtain rfl := List.mem_singleton.mp inside
    simp [(expiredOf here).mpr old,master]

/-- The lookups remove expired keys only. -/
theorem lookupEntries (keys : List Bytes) :
    e ∈ (lookupKeys call keys db).1.entries ↔ e ∈ db.entries ∧ ¬ Evicted call keys e := by
  induction keys generalizing db with
  | nil => simp [lookupKeys,Evicted]
  | cons key rest ih =>
    have later : (lookupKeys call (key :: rest) db).1 = (lookupKeys call rest (lookupKeyRead call db key).1).1 := by
      rw [lookupKeys]
      split <;> rfl
    rw [later,ih,readEntries]
    simp only [Evicted,List.mem_cons,List.not_mem_nil,or_false]
    tauto

theorem readFound {key : Bytes} {value : Value} (found : (lookupKeyRead call db key).2 = some value)
    (keys : List Bytes) :
    ∃ timed, (key,timed) ∈ db.entries ∧ ¬ Evicted call keys (key,timed) ∧ timed.value = value := by
  unfold lookupKeyRead at found
  split at found
  · contradiction
  · rename_i stays
    obtain ⟨⟨k,timed⟩,first,rfl⟩ := Option.map_eq_some_iff.mp found
    obtain ⟨here,same⟩ := Dict.findMem first
    obtain rfl : k = key := same
    refine ⟨timed,here,?_,rfl⟩
    rintro ⟨_,master,_,old⟩
    have expired := (expiredOf here).mpr old
    exact stays (by simpa [master] using expired)

theorem lookupFound {f : Bytes × Value} (found : f ∈ (lookupKeys call keys db).2) :
    ∃ timed, (f.1,timed) ∈ (lookupKeys call keys db).1.entries ∧ timed.value = f.2 := by
  induction keys generalizing db with
  | nil => contradiction
  | cons key rest ih =>
    cases read : (lookupKeyRead call db key).2 with
    | none =>
      simp only [lookupKeys,read] at found ⊢
      exact ih found
    | some value =>
      rcases List.mem_cons.mp (by simpa only [lookupKeys,read] using found) with rfl | found
      · obtain ⟨timed,here,stays,same⟩ := readFound read (key :: rest)
        exact ⟨timed,(lookupEntries _).mpr ⟨here,stays⟩,same⟩
      · simp only [lookupKeys,read]
        exact ih found

end lookups

section requests
variable {db : Db Value} {replace : Bool} {now : Nat → Int} {j : Nat}

theorem memSerialise {q : Restore Value} {kv : List Bytes} {ov : List Value} : q ∈ serialise replace db now j kv ov ↔
    ∃ i, kv[i]? = some q.key ∧ ov[i]? = some q.value ∧ ttlOf db q.key (now (j + i)) = some q.ttl ∧
      q.replace = replace := by
  induction kv generalizing j ov with
  | nil => simp [serialise]
  | cons key kv ih =>
    cases ov with
    | nil => simp [serialise]
    | cons value ov =>
      have split : (∃ i, (key :: kv)[i]? = some q.key ∧ (value :: ov)[i]? = some q.value ∧
          ttlOf db q.key (now (j + i)) = some q.ttl ∧ q.replace = replace) ↔
          (key = q.key ∧ value = q.value ∧ ttlOf db q.key (now j) = some q.ttl ∧ q.replace = replace) ∨
          ∃ i, kv[i]? = some q.key ∧ ov[i]? = some q.value ∧ ttlOf db q.key (now (j + 1 + i)) = some q.ttl ∧
            q.replace = replace := by
        constructor
        · rintro ⟨i,here⟩
          cases i with
          | zero => exact .inl (by simpa using here)
          | succ i => exact .inr ⟨i,by simpa [Nat.add_assoc,Nat.add_comm 1 i] using here⟩
        · rintro (here | ⟨i,here⟩)
          · exact ⟨0,by simpa using here⟩
          · exact ⟨i + 1,by simpa [Nat.add_assoc,Nat.add_comm 1 i] using here⟩
      rw [split,serialise,← ih]
      cases lives : ttlOf db key (now j) with
      | none =>
        refine (or_iff_right ?_).symm
        rintro ⟨rfl,_,here,_⟩
        simp [lives] at here
      | some ttl =>
        rw [List.mem_cons]
        refine or_congr_left ⟨?_,?_⟩
        · rintro rfl
          exact ⟨rfl,rfl,lives,rfl⟩
        · rintro ⟨rfl,rfl,here,rfl⟩
          obtain rfl := Option.some.inj (lives.symm.trans here)
          rfl

theorem serialiseTake (n : Nat) (kv : List Bytes) (ov : List Value) :
    serialise replace db now j (kv.take n) ov <+: serialise replace db now j kv ov := by
  induction kv generalizing j n ov with
  | nil => simp only [List.take_nil,List.prefix_rfl]
  | cons key kv ih =>
    cases n with
    | zero => exact List.nil_prefix
    | succ n =>
      cases ov with
      | nil => exact List.prefix_rfl
      | cons value ov =>
        rw [List.take_succ_cons,serialise,serialise]
        cases ttlOf db key (now j) with
        | none => exact ih n ov
        | some ttl => exact List.prefix_cons_inj _ |>.mpr (ih n ov)

theorem serialiseKeys (found : List (Bytes × Value)) :
    (serialise replace db now j (found.map Prod.fst) (found.map Prod.snd)).map Restore.key =
      (unexpired db now j found).map Prod.fst := by
  induction found generalizing j with
  | nil => rfl
  | cons e rest ih =>
    simp only [List.map_cons,serialise,unexpired]
    cases ttlOf db e.1 (now j) with
    | none => simpa using ih
    | some ttl => simpa using ih

theorem unexpiredSublist (found : List (Bytes × Value)) : (unexpired db now j found).Sublist found := by
  induction found generalizing j with
  | nil => exact .slnil
  | cons e rest ih =>
    rw [unexpired]
    split
    · exact ih.cons_cons e
    · exact ih.cons e

theorem unexpiredAll {found : List (Bytes × Value)} (steady : ∀ e ∈ found, ∀ j, ttlOf db e.1 (now j) ≠ none) :
    unexpired db now j found = found := by
  induction found generalizing j with
  | nil => rfl
  | cons e rest ih =>
    have lives := Option.isSome_iff_ne_none.mpr (steady e List.mem_cons_self j)
    rw [unexpired,if_pos lives,ih fun f inside => steady f (List.mem_cons_of_mem _ inside)]

theorem ttlOwn {e : Bytes × Timed Value} {moment ttl : Int} (here : e ∈ db.entries)
    (lives : ttlOf db e.1 moment = some ttl) :
    e.2.expire = -1 ∧ ttl = 0 ∨ e.2.expire ≠ -1 ∧ moment ≤ e.2.expire ∧ ttl = max 1 (e.2.expire - moment) := by
  simp only [ttlOf,expireOf here] at lives
  split at lives
  · rename_i expires
    split at lives <;> try contradiction
    obtain rfl := Option.some.inj lives
    refine .inr ⟨expires,by omega,?_⟩
    split <;> omega
  · rename_i never
    exact .inl ⟨not_not.mp never,(Option.some.inj lives).symm⟩

end requests

section replies
variable {copy : Bool} {early : Option ErrorLine} {lines : Nat → Option Bool} {j : Nat}
    {kv : List Bytes} {r : Replies Value}

def Answered (lines : Nat → Option Bool) (j : Nat) (kv : List Bytes) (key : Bytes) : Prop :=
  ∃ i, kv[i]? = some key ∧ (∀ m < i, lines (j + m) ≠ none) ∧ lines (j + i) = some false

theorem answeredCons {first key : Bytes} : Answered lines j (first :: kv) key ↔
    first = key ∧ lines j = some false ∨ lines j ≠ none ∧ Answered lines (j + 1) kv key := by
  constructor
  · rintro ⟨i,here,before,answered⟩
    cases i with
    | zero => exact .inl ⟨by simpa using here,answered⟩
    | succ i =>
      refine .inr ⟨before 0 i.succ_pos,i,by simpa using here,fun m below => ?_,?_⟩
      · rw [Nat.add_assoc,Nat.add_comm 1 m]
        exact before (m + 1) (Nat.succ_lt_succ below)
      · rwa [Nat.add_assoc,Nat.add_comm 1 i]
  · rintro (⟨rfl,answered⟩ | ⟨read,i,here,before,answered⟩)
    · exact ⟨0,rfl,nofun,answered⟩
    · refine ⟨i + 1,by simpa using here,fun m below => ?_,?_⟩
      · cases m with
        | zero => exact read
        | succ m =>
          rw [Nat.add_comm m 1,← Nat.add_assoc]
          exact before m (Nat.lt_of_succ_lt_succ below)
      · rwa [Nat.add_comm i 1,← Nat.add_assoc]

theorem replyEntries {bad : Bool} {key : Bytes} {e : Bytes × Timed Value} :
    e ∈ (readReply copy early j bad key r).db.entries ↔
      e ∈ r.db.entries ∧ ¬ (copy = false ∧ early = none ∧ bad = false ∧ key = e.1) := by
  cases early with
  | some line => simp [readReply]
  | none => cases bad <;> cases copy <;> simp [readReply,Dict.memDelete,eq_comm]

theorem replyError {bad : Bool} {key : Bytes} : (readReply copy early j bad key r).error = none ↔
    r.error = none ∧ early = none ∧ bad = false := by
  cases early with
  | some line => cases error : r.error <;> simp [readReply,error]
  | none => cases bad <;> cases copy <;> cases error : r.error <;> simp [readReply,error]

theorem repliesEntries {e : Bytes × Timed Value} : e ∈ (readReplies copy early lines j kv r).db.entries ↔
    e ∈ r.db.entries ∧ ¬ (copy = false ∧ early = none ∧ Answered lines j kv e.1) := by
  induction kv generalizing j r with
  | nil => simp [readReplies,Answered]
  | cons key rest ih =>
    rw [readReplies,answeredCons]
    cases line : lines j with
    | none => simp
    | some bad =>
      rw [ih,replyEntries,Option.some.injEq]
      simp only [ne_eq,reduceCtorEq,not_false_eq_true,true_and]
      tauto

theorem repliesOk (error : (readReplies copy early lines j kv r).error = none)
    (socket : (readReplies copy early lines j kv r).socketError = false) :
    r.error = none ∧ ∀ i < kv.length, early = none ∧ lines (j + i) = some false := by
  induction kv generalizing j r with
  | nil => exact ⟨error,nofun⟩
  | cons key rest ih =>
    rw [readReplies] at error socket
    cases line : lines j with
    | none => simp [line] at socket
    | some bad =>
      simp only [line] at error socket
      obtain ⟨before,later⟩ := ih error socket
      obtain ⟨before,quiet,fine⟩ := replyError.mp before
      refine ⟨before,fun i below => ?_⟩
      cases i with
      | zero => exact ⟨quiet,by simpa [fine] using line⟩
      | succ i =>
        rw [Nat.add_comm i 1,← Nat.add_assoc]
        exact later i (Nat.lt_of_succ_lt_succ below)

theorem repliesPosition : j ≤ (readReplies copy early lines j kv r).position := by
  induction kv generalizing j r with
  | nil => exact le_rfl
  | cons key rest ih =>
    rw [readReplies]
    split
    · exact le_rfl
    · exact (Nat.le_succ j).trans ih

/-- The loop stops before any reply exactly when it has one to read and cannot. -/
theorem repliesStart (db : Db Value) : ((readReplies copy early lines 0 kv ⟨db,[],none,false,0⟩).error.isNone &&
    (readReplies copy early lines 0 kv ⟨db,[],none,false,0⟩).socketError &&
    decide ((readReplies copy early lines 0 kv ⟨db,[],none,false,0⟩).position = 0)) = true ↔
      kv ≠ [] ∧ lines 0 = none := by
  cases kv with
  | nil => simp [readReplies]
  | cons key rest =>
    cases line : lines 0 with
    | none => simp [readReplies,line]
    | some bad =>
      have past : (readReplies copy early lines (0 + 1) rest
          (readReply copy early 0 bad key ⟨db,[],none,false,0⟩)).position ≠ 0 :=
        Nat.ne_of_gt repliesPosition
      simp [readReplies,line,past]

end replies

section attempts
variable {call : Call} {a : Attempt} {mayRetry : Bool} {kv : List Bytes} {ov : List Value}
    {db : Db Value} {t : Tried Value}

def passedOn (a : Attempt) (kv : List Bytes) : List Bytes :=
  match a.write with
  | none => kv
  | some n => kv.take n

/-- The ways of an attempt: no connection, one that fails before a reply to a RESTORE is read, and replies. -/
inductive AttemptWay (call : Call) (a : Attempt) (mayRetry : Bool) (kv : List Bytes) (ov : List Value) (db : Db Value) :
    Tried Value → Prop
  | unreached (off : a.connected = false) : AttemptWay call a mayRetry kv ov db ⟨[],kv,db,[],.unreachable,false⟩
  | broken (writing : Bool) (on : a.connected = true) (failing : Failing call a) : AttemptWay call a mayRetry kv ov db
      ⟨serialise call.replace db a.now 0 (passedOn a kv) ov,(serialise call.replace db a.now 0 kv ov).map Restore.key,db,[],
        .ioerr writing,mayRetry && !a.timedOut⟩
  | answered (deleted : List Bytes) (reply : Reply) (on : a.connected = true)
      (written : a.write = none ∨ serialise call.replace db a.now 0 kv ov = [])
      (auth : call.password = true → a.auth ≠ none) (select : a.selects = true → a.select ≠ none)
      (steady : mayRetry = true → a.timedOut = false → a.restores 0 = none →
        serialise call.replace db a.now 0 kv ov = [])
      (ok : reply = .ok → ∀ i < (serialise call.replace db a.now 0 kv ov).length,
        earlyLine call a = none ∧ a.restores i = some false) : AttemptWay call a mayRetry kv ov db
      ⟨serialise call.replace db a.now 0 kv ov,(serialise call.replace db a.now 0 kv ov).map Restore.key,
        (readReplies call.copy (earlyLine call a) a.restores 0
          ((serialise call.replace db a.now 0 kv ov).map Restore.key)
          ⟨db,[],none,false,0⟩).db,deleted,reply,false⟩

theorem brokenWhole (on : a.connected = true) (failing : Failing call a) (write : a.write = none) :
    AttemptWay call a mayRetry kv ov db
    ⟨serialise call.replace db a.now 0 kv ov,(serialise call.replace db a.now 0 kv ov).map Restore.key,db,[],.ioerr false,
      mayRetry && !a.timedOut⟩ := by
  have way : ∀ passed, passed = passedOn a kv → AttemptWay call a mayRetry kv ov db
      ⟨serialise call.replace db a.now 0 passed ov,(serialise call.replace db a.now 0 kv ov).map Restore.key,db,[],
        .ioerr false,mayRetry && !a.timedOut⟩ := by
    rintro _ rfl
    exact .broken false on failing
  exact way kv (by rw [passedOn,write])

theorem attemptWay (call : Call) (a : Attempt) (mayRetry : Bool) (kv : List Bytes) (ov : List Value) (db : Db Value) :
    AttemptWay call a mayRetry kv ov db (attempt call a mayRetry kv ov db) := by
  unfold attempt
  split
  · rename_i off
    exact .unreached (by simpa using off)
  rename_i on
  have on : a.connected = true := by simpa using on
  dsimp only
  split
  · rename_i n write
    have write : a.write = some n := by
      split at write
      · contradiction
      · exact write
    have passed : passedOn a kv = kv.take n := by rw [passedOn,write]
    rw [← passed]
    exact .broken true on (.inl (by simp [write]))
  rename_i written
  have written : a.write = none ∨
      serialise call.replace db a.now 0 kv ov = [] ∧ call.password = false ∧ a.selects = false := by
    split at written
    · rename_i empty
      exact .inr (by simpa [and_assoc] using empty)
    · exact .inl written
  split
  · rename_i unread
    have unread : call.password = true ∧ a.auth = none ∨ a.selects = true ∧ a.select = none := by simpa using unread
    have write : a.write = none := by
      rcases written with none | ⟨_,password,selects⟩
      · exact none
      · simp [password,selects] at unread
    exact brokenWhole on (.inr (unread.imp id .inl)) write
  rename_i read
  have read : (call.password = true → a.auth ≠ none) ∧ (a.selects = true → a.select ≠ none) := by simpa using read
  split
  · rename_i again
    rw [Bool.and_assoc,Bool.and_eq_true,repliesStart] at again
    obtain ⟨⟨filled,unread⟩,_⟩ := again
    have write : a.write = none := written.resolve_right fun empty => filled (by rw [empty.1,List.map_nil])
    exact brokenWhole on (.inr (.inr (.inr unread))) write
  · rename_i last
    rw [Bool.and_assoc,Bool.and_eq_true,repliesStart] at last
    have steady : mayRetry = true → a.timedOut = false → a.restores 0 = none →
        serialise call.replace db a.now 0 kv ov = [] := by
      intro may quick unread
      by_contra filled
      exact last ⟨⟨by simpa using filled,unread⟩,by simp [may,quick]⟩
    split
    · rename_i line error
      exact .answered _ _ on (written.imp id And.left) read.1 read.2 steady nofun
    · rename_i quiet
      refine .answered _ _ on (written.imp id And.left) read.1 read.2 steady fun ok i below => ?_
      split at ok
      · contradiction
      · rename_i whole
        simpa using (repliesOk quiet (Bool.eq_false_iff.mpr whole)).2 i (by simpa using below)

theorem passedAt {i : Nat} {key : Bytes} : (passedOn a kv)[i]? = some key ↔
    kv[i]? = some key ∧ ∀ n, a.write = some n → i < n := by
  unfold passedOn
  split
  · rename_i whole
    simp [whole]
  · rename_i n cut
    rw [List.getElem?_take]
    split <;> simp [*]

theorem attemptSent {q : Restore Value} : q ∈ (attempt call a mayRetry kv ov db).sent ↔ a.connected = true ∧
    ∃ i, (passedOn a kv)[i]? = some q.key ∧ ov[i]? = some q.value ∧ ttlOf db q.key (a.now i) = some q.ttl ∧
      q.replace = call.replace := by
  have way := attemptWay call a mayRetry kv ov db
  generalize attempt call a mayRetry kv ov db = t at way ⊢
  cases way with
  | unreached off => simp [off]
  | broken _ on => simp only [on,memSerialise,Nat.zero_add,true_and]
  | answered _ _ on written =>
    simp only [on,true_and]
    rcases written with write | none
    · rw [passedOn,write,memSerialise]
      simp only [Nat.zero_add]
    · rw [none]
      refine ⟨fun absurd_ => absurd absurd_ List.not_mem_nil,?_⟩
      rintro ⟨i,here,there,lives,same⟩
      rw [← none,memSerialise]
      exact ⟨i,(passedAt.mp here).1,there,by rwa [Nat.zero_add],same⟩

/-- A write that fails has sent the first of the requests. -/
theorem attemptFirst : (attempt call a mayRetry kv ov db).sent <+: serialise call.replace db a.now 0 kv ov := by
  have way := attemptWay call a mayRetry kv ov db
  generalize attempt call a mayRetry kv ov db = t at way ⊢
  cases way with
  | unreached => exact List.nil_prefix
  | broken =>
    unfold passedOn
    split
    · exact List.prefix_rfl
    · exact serialiseTake _ kv ov
  | answered => exact List.prefix_rfl

theorem earlyIff (auth : call.password = true → a.auth ≠ none) (select : a.selects = true → a.select ≠ none) :
    earlyLine call a = none ↔ (call.password = true → a.auth = some false) ∧
      (a.selects = true → a.select = some false) := by
  have read : ∀ (b : Bool) (line : Option Bool), (b = true → line ≠ none) →
      ((b = true → line = some false) ↔ (b && decide (line = some true)) = false) := by
    rintro (_ | _) (_ | (_ | _)) <;> simp
  rw [read _ _ auth,read _ _ select,earlyLine]
  cases call.password && decide (a.auth = some true) <;> simp

theorem attemptEntries {e : Bytes × Timed Value} : e ∈ (attempt call a mayRetry kv ov db).db.entries ↔ e ∈ db.entries ∧
    ¬ (call.copy = false ∧ AckedKey call [(a,(attempt call a mayRetry kv ov db).sent)] e.1) := by
  have single : ∀ sent : List (Restore Value), AckedKey call [(a,sent)] e.1 ↔
      ∃ j q, sent[j]? = some q ∧ q.key = e.1 ∧ Acked call a j := fun sent => by simp [AckedKey]
  have way := attemptWay call a mayRetry kv ov db
  generalize attempt call a mayRetry kv ov db = t at way ⊢
  rw [single]
  cases way with
  | unreached => simp
  | broken _ _ failing => simp [failingSilent failing]
  | answered _ _ _ written auth select =>
    rw [repliesEntries]
    refine and_congr_right fun _ => not_congr (and_congr_right fun _ => ?_)
    rw [earlyIff auth select]
    constructor
    · rintro ⟨fine,i,here,before,answered⟩
      rw [List.getElem?_map,Option.map_eq_some_iff] at here
      obtain ⟨q,sent,same⟩ := here
      have write : a.write = none := written.resolve_right fun none => by simp [none] at sent
      exact ⟨i,q,sent,same,write,fine.1,fine.2,by simpa using before,by simpa using answered⟩
    · rintro ⟨i,q,sent,same,_,first,second,before,answered⟩
      refine ⟨⟨first,second⟩,i,?_,by simpa using before,by simpa using answered⟩
      rw [List.getElem?_map,sent,Option.map_some,same]

theorem attemptOk (ok : (attempt call a mayRetry kv ov db).reply = .ok) {j : Nat} {q : Restore Value}
    (sent : (attempt call a mayRetry kv ov db).sent[j]? = some q) : Acked call a j := by
  have way := attemptWay call a mayRetry kv ov db
  generalize attempt call a mayRetry kv ov db = t at way ok sent
  cases way with
  | unreached => contradiction
  | broken => contradiction
  | answered _ _ _ written auth select steady fine =>
    have below : ∀ i ≤ j, earlyLine call a = none ∧ a.restores i = some false := fun i le =>
      fine ok i (le.trans_lt (List.getElem?_eq_some_iff.mp sent).1)
    have write : a.write = none := written.resolve_right fun none => by simp [none] at sent
    obtain ⟨first,second⟩ := (earlyIff auth select).mp (below j le_rfl).1
    exact ⟨write,first,second,fun i before => by simp [(below i before.le).2],(below j le_rfl).2⟩

theorem attemptWhole (ok : (attempt call a mayRetry kv ov db).reply = .ok) :
    (attempt call a mayRetry kv ov db).sent = serialise call.replace db a.now 0 kv ov := by
  have way := attemptWay call a mayRetry kv ov db
  generalize attempt call a mayRetry kv ov db = t at way ok ⊢
  cases way with
  | unreached => contradiction
  | broken => contradiction
  | answered => rfl

/-- An attempt that is tried again has failed before a reply, has not timed out, and changes nothing. -/
theorem attemptAgain (again : (attempt call a mayRetry kv ov db).retry = true) :
    Retried call a ∧ (attempt call a mayRetry kv ov db).db = db ∧
      (attempt call a mayRetry kv ov db).kv = (serialise call.replace db a.now 0 kv ov).map Restore.key := by
  have way := attemptWay call a mayRetry kv ov db
  generalize attempt call a mayRetry kv ov db = t at way again ⊢
  cases way with
  | unreached => contradiction
  | broken _ on failing =>
    obtain ⟨_,quick⟩ : mayRetry = true ∧ a.timedOut = false := by simpa using again
    exact ⟨⟨on,quick,failing⟩,rfl,rfl⟩
  | answered => contradiction

theorem retriedAgain (retried : Retried call a) : (attempt call a true kv ov db).retry = true ∨
    serialise call.replace db a.now 0 kv ov = [] := by
  obtain ⟨on,quick,failing⟩ := retried
  have way := attemptWay call a true kv ov db
  generalize attempt call a true kv ov db = t at way ⊢
  cases way with
  | unreached off => simp [on] at off
  | broken => exact .inl (by simp [quick])
  | answered _ _ _ written auth select steady =>
    refine .inr ?_
    rcases failing with write | ⟨password,unread⟩ | ⟨selects,unread⟩ | unread
    · exact written.resolve_left write
    · exact absurd unread (auth password)
    · exact absurd unread (select selects)
    · exact steady rfl quick unread

structure AttemptSpec (call : Call) (a : Attempt) (mayRetry : Bool) (kv : List Bytes) (ov : List Value) (db : Db Value)
    (t : Tried Value) : Prop where
  sent : ∀ q, q ∈ t.sent ↔ a.connected = true ∧ ∃ i, (passedOn a kv)[i]? = some q.key ∧ ov[i]? = some q.value ∧
    ttlOf db q.key (a.now i) = some q.ttl ∧ q.replace = call.replace
  first : t.sent <+: serialise call.replace db a.now 0 kv ov
  entries : ∀ e, e ∈ t.db.entries ↔ e ∈ db.entries ∧ ¬ (call.copy = false ∧ AckedKey call [(a,t.sent)] e.1)
  ok : t.reply = .ok → t.sent = serialise call.replace db a.now 0 kv ov ∧ ∀ j q, t.sent[j]? = some q → Acked call a j
  retried : mayRetry = true → Retried call a → t.retry = true ∨ serialise call.replace db a.now 0 kv ov = []

theorem attemptSpec (call : Call) (a : Attempt) (mayRetry : Bool) (kv : List Bytes) (ov : List Value) (db : Db Value) :
    AttemptSpec call a mayRetry kv ov db (attempt call a mayRetry kv ov db) :=
  ⟨fun _ => attemptSent,attemptFirst,fun _ => attemptEntries,fun ok => ⟨attemptWhole ok,fun _ _ => attemptOk ok⟩,
    fun may retried => by rw [may]; exact retriedAgain retried⟩

end attempts

section command
variable {call : Call} {first second : Attempt} {db : Db Value}

/-- The ways of the command, from what its lookups leave and find. -/
inductive CommandWay (call : Call) (first second : Attempt)
    (looked : Db Value × List (Bytes × Value)) : Outcome Value → Prop
  | nokey (none : looked.2 = []) : CommandWay call first second looked ⟨looked.1,[],[],.nokey⟩
  | once (t : Tried Value) (spec : AttemptSpec call first true (looked.2.map Prod.fst)
      (looked.2.map Prod.snd) looked.1 t)
      (last : t.retry = false) : CommandWay call first second looked ⟨t.db,[(first,t.sent)],t.deleted,t.reply⟩
  | again (t again : Tried Value)
      (spec : AttemptSpec call first true (looked.2.map Prod.fst)
        (looked.2.map Prod.snd) looked.1 t) (retried : Retried call first)
      (later : AttemptSpec call second false ((unexpired looked.1 first.now 0 looked.2).map Prod.fst)
        (looked.2.map Prod.snd) looked.1 again) : CommandWay call first second looked
      ⟨again.db,[(first,t.sent),(second,again.sent)],again.deleted,again.reply⟩

theorem commandWay (call : Call) (first second : Attempt) (db : Db Value) :
    CommandWay call first second (lookupKeys call call.keys db) (migrateCommand call first second db) := by
  unfold migrateCommand
  dsimp only
  generalize lookupKeys call call.keys db = looked
  split
  · rename_i none
    exact .nokey (List.isEmpty_iff.mp none)
  have spec := attemptSpec call first true (looked.2.map Prod.fst) (looked.2.map Prod.snd) looked.1
  split
  · rename_i again
    obtain ⟨retried,same,keys⟩ := attemptAgain again
    rw [same,keys,serialiseKeys]
    exact .again _ _ spec retried (attemptSpec ..)
  · rename_i once
    exact .once _ spec (Bool.eq_false_iff.mpr once)

theorem ackedPair {t u : Attempt × List (Restore Value)} {key : Bytes} :
    AckedKey call [t,u] key ↔ AckedKey call [t] key ∨ AckedKey call [u] key := by
  simp [AckedKey]

theorem failingKey {a : Attempt} {sent : List (Restore Value)} {key : Bytes} (failing : Failing call a) :
    ¬ AckedKey call [(a,sent)] key := by
  rintro ⟨t,inside,j,q,_,_,acked⟩
  obtain rfl := List.mem_singleton.mp inside
  exact failingSilent failing j acked

theorem commandDeleted (call : Call) (first second : Attempt) (db : Db Value) (e : Bytes × Timed Value) :
    e ∈ (migrateCommand call first second db).db.entries ↔ e ∈ db.entries ∧ ¬ Evicted call call.keys e ∧
      ¬ (call.copy = false ∧ AckedKey call (migrateCommand call first second db).attempts e.1) := by
  rw [← and_assoc,← lookupEntries]
  have way := commandWay call first second db
  generalize migrateCommand call first second db = out at way ⊢
  cases way with
  | nokey => simp [AckedKey]
  | once t spec => exact spec.entries e
  | again t again spec retried later =>
    rw [later.entries]
    refine and_congr_right fun _ => not_congr (and_congr_right fun _ => ?_)
    exact (ackedPair.trans (or_iff_right (failingKey retried.2.2))).symm

theorem commandOk (ok : (migrateCommand call first second db).reply = .ok) :
    ∀ t ∈ (migrateCommand call first second db).attempts, ∀ j q, t.2[j]? = some q →
      AckedKey call (migrateCommand call first second db).attempts q.key ∨
        ∃ u, (migrateCommand call first second db).attempts = [t,u] ∧
          ttlOf (lookupKeys call call.keys db).1 q.key (u.1.now j) = none := by
  have way := commandWay call first second db
  generalize migrateCommand call first second db = out at way ok ⊢
  generalize lookupKeys call call.keys db = looked at way ⊢
  have acked : ∀ {a : Attempt} {sent : List (Restore Value)}, (∀ j q, sent[j]? = some q → Acked call a j) →
      ∀ {j : Nat} {q : Restore Value}, sent[j]? = some q → AckedKey call [(a,sent)] q.key := by
    intro a sent all j q here
    exact ⟨_,List.mem_singleton.mpr rfl,j,q,here,rfl,all j q here⟩
  cases way with
  | nokey => contradiction
  | once t spec =>
    intro u inside j q sent
    obtain rfl := List.mem_singleton.mp inside
    exact .inl (acked (spec.ok ok).2 sent)
  | again t again spec retried later =>
    intro u inside j q sent
    rcases List.mem_cons.mp inside with rfl | inside
    · obtain ⟨rest,whole⟩ := spec.first
      have below := (List.getElem?_eq_some_iff.mp sent).1
      have serialised : (serialise call.replace looked.1 first.now 0 (looked.2.map Prod.fst)
          (looked.2.map Prod.snd))[j]? = some q := by
        rw [← whole,List.getElem?_append_left below]
        exact sent
      have place : ((unexpired looked.1 first.now 0 looked.2).map Prod.fst)[j]? = some q.key := by
        rw [← @serialiseKeys _ looked.1 call.replace,List.getElem?_map,serialised,Option.map_some]
      obtain ⟨value,object⟩ : ∃ value, (looked.2.map Prod.snd)[j]? = some value := by
        have below := (List.getElem?_eq_some_iff.mp place).1
        rw [List.length_map] at below
        have within := below.trans_le (unexpiredSublist looked.2).length_le
        exact ⟨_,List.getElem?_eq_getElem (by rwa [List.length_map])⟩
      cases lives : ttlOf looked.1 q.key (second.now j) with
      | none => exact .inr ⟨_,rfl,lives⟩
      | some ttl =>
        obtain ⟨whole,all⟩ := later.ok ok
        have resent : (⟨q.key,ttl,value,call.replace⟩ : Restore Value) ∈ again.sent := by
          rw [whole,memSerialise]
          exact ⟨j,place,object,by rwa [Nat.zero_add],rfl⟩
        obtain ⟨k,here⟩ := List.getElem?_of_mem resent
        have answered : AckedKey call [(second,again.sent)] q.key :=
          ⟨_,List.mem_singleton.mpr rfl,k,_,here,rfl,all k _ here⟩
        exact .inl (ackedPair.mpr (.inr answered))
    · obtain rfl := List.mem_singleton.mp inside
      exact .inl (ackedPair.mpr (.inr (acked (later.ok ok).2 sent)))

theorem ownIff {key : Bytes} {value own : Value} {ttl : Int} {now : Nat → Int} {i : Nat}
    (found : (key,own) ∈ (lookupKeys call call.keys db).2) 
      (lives : ttlOf (lookupKeys call call.keys db).1 key (now i) = some ttl)
    (replace : Bool) : Own db now ⟨key,ttl,value,replace⟩ ↔ value = own := by
  obtain ⟨timed,here,same⟩ := lookupFound found
  have inside := ((lookupEntries _).mp here).1
  constructor
  · rintro ⟨timed',_,there,rfl,_⟩
    have entry := Dict.entryUnique db there inside rfl
    obtain rfl : timed' = timed := congrArg Prod.snd entry
    exact same
  · rintro rfl
    exact ⟨timed,i,inside,same.symm,ttlOwn here lives⟩

theorem commandOwn (call : Call) (first second : Attempt) (db : Db Value) :
    (∀ t ∈ (migrateCommand call first second db).attempts, ∀ q ∈ t.2, Own db t.1.now q) ↔
      (Retried call first → second.connected = true → InPlace call first second db) := by
  have way := commandWay call first second db
  generalize migrateCommand call first second db = out at way ⊢
  have firstOwn : ∀ {t : Tried Value}, AttemptSpec call first true ((lookupKeys call call.keys db).2.map Prod.fst)
      ((lookupKeys call call.keys db).2.map Prod.snd) (lookupKeys call call.keys db).1 t →
        ∀ q ∈ t.sent, Own db first.now q := by
    intro t spec q sent
    obtain ⟨_,i,here,there,lives,_⟩ := (spec.sent q).mp sent
    have here := (passedAt.mp here).1
    rw [List.getElem?_map,Option.map_eq_some_iff] at here there
    obtain ⟨e,place,key⟩ := here
    obtain ⟨f,place',value⟩ := there
    obtain rfl := Option.some.inj (place.symm.trans place')
    have found : (q.key,q.value) ∈ (lookupKeys call call.keys db).2 := by
      rw [← key,← value]
      exact List.mem_of_getElem? place
    exact (ownIff found lives q.replace).mpr rfl
  cases way with
  | nokey none =>
    refine ⟨fun _ _ _ i e f _ there => ?_,fun _ => nofun⟩
    simp [none] at there
  | once t spec last =>
    constructor
    · intro _ retried _ i e f place
      have empty := (spec.retried rfl retried).resolve_left (by simp [last])
      have gone : ([] : List (Restore Value)).map Restore.key = (unexpired (lookupKeys call call.keys db).1 first.now 0
          (lookupKeys call call.keys db).2).map Prod.fst := by rw [← empty,serialiseKeys]
      rw [List.map_nil,eq_comm,List.map_eq_nil_iff] at gone
      simp [gone] at place
    · intro _ u inside
      obtain rfl := List.mem_singleton.mp inside
      exact firstOwn spec
  | again t again spec retried later =>
    simp only [List.forall_mem_cons,List.not_mem_nil,false_implies,implies_true,and_true]
    constructor
    · rintro ⟨_,own⟩ _ on i e f place there before lives
      obtain ⟨ttl,lives⟩ := Option.ne_none_iff_exists'.mp lives
      have sent : (⟨e.1,ttl,f.2,call.replace⟩ : Restore Value) ∈ again.sent :=
        (later.sent _).mpr ⟨on,i,passedAt.mpr ⟨by rw [List.getElem?_map,place]; rfl,before⟩,
          by rw [List.getElem?_map,there]; rfl,lives,rfl⟩
      have found := (unexpiredSublist _).subset (List.mem_of_getElem? place)
      exact (ownIff found lives call.replace).mp (own _ sent)
    · intro inPlace
      refine ⟨firstOwn spec,fun q sent => ?_⟩
      obtain ⟨on,i,here,there,lives,_⟩ := (later.sent q).mp sent
      obtain ⟨here,before⟩ := passedAt.mp here
      rw [List.getElem?_map,Option.map_eq_some_iff] at here there
      obtain ⟨e,place,key⟩ := here
      obtain ⟨f,there,value⟩ := there
      rw [← key] at lives
      have same := inPlace retried on i e f place there before (by simp [lives])
      have found := (unexpiredSublist _).subset (List.mem_of_getElem? place)
      have own := (ownIff found lives q.replace).mpr same
      rwa [key,value] at own

/-- Keys that do not expire keep their objects in place. -/
theorem steadyInPlace (steady : ∀ e ∈ (lookupKeys call call.keys db).2, ∀ j,
    ttlOf (lookupKeys call call.keys db).1 e.1 (first.now j) ≠ none) :
    InPlace call first second db := by
  intro i e f place there _ _
  rw [unexpiredAll steady,there] at place
  rw [Option.some.inj place]

end command

/-- MIGRATE is faithful exactly when it does not try again, or the objects stand in place for the retry. -/
theorem migrateFaithful (call : Call) (first second : Attempt) (db : Db Value) :
    Faithful call db (migrateCommand call first second db) ↔
      (Retried call first → second.connected = true → InPlace call first second db) :=
  ⟨fun faithful => (commandOwn call first second db).mp faithful.own,
    fun inPlace => ⟨(commandOwn call first second db).mpr inPlace,commandDeleted call first second db,commandOk⟩⟩

/-- `a` expires before it is serialised, the connection fails before a reply, and the retry sends `b` with the value of `a`. -/
theorem valueMisplaced : ¬ ∀ (call : Call) (first second : Attempt) (db : Db Bytes),
    Faithful call db (migrateCommand call first second db) := by
  let call : Call := ⟨[[97],[98]],false,false,false,0,false,false⟩
  let first : Attempt := ⟨true,false,fun _ => 20,none,none,none,fun _ => none,false⟩
  let second : Attempt := ⟨true,false,fun _ => 20,none,none,none,fun _ => some false,false⟩
  let db : Db Bytes := ⟨[([97],⟨[1],10⟩),([98],⟨[2],-1⟩)],by decide⟩
  intro all
  have inPlace := (commandOwn call first second db).mp (all call first second db).own
    ⟨rfl,rfl,.inr (.inr (.inr rfl))⟩ rfl
  have same := inPlace 0 ([98],[2]) ([97],[1]) rfl rfl nofun (by decide)
  exact absurd same (by decide)

end HpuCache.MigrateRetry
