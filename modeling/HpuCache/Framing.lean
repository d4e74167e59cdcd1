import Mathlib.Data.List.Induction
import Mathlib.Data.List.TakeDrop

/-! Messages on a byte stream, each one with a head that tells its length. A reader takes
the stream one symbol at a time and hands every whole message to a handler; a reader that
takes it in pieces does the same as long as no piece runs past the end of a message. -/
namespace HpuCache.Framing

variable {β τ : Type}

structure Format (β : Type) where
  headLen : Nat
  -- The length of the whole message, head included; `none` when the head is refused.
  total : List β → Option Nat
  headed : 0 < headLen
  reaches : ∀ {head n}, total head = some n → headLen ≤ n

namespace Format

variable {f : Format β}

def size (f : Format β) (buffer : List β) : Option Nat := f.total (buffer.take f.headLen)

/-- The buffer holds the beginning of a message, and not the whole of it. -/
def Awaits (f : Format β) (buffer : List β) : Prop :=
  buffer.length < f.headLen ∨ ∃ n, f.size buffer = some n ∧ buffer.length < n

/-- A whole message and nothing else. -/
def Message (f : Format β) (m : List β) : Prop := f.size m = some m.length

theorem Message.headed {m : List β} (formed : f.Message m) : f.headLen ≤ m.length := f.reaches formed

theorem Message.nonempty {m : List β} (formed : f.Message m) : m ≠ [] := by
  rintro rfl
  have long := formed.headed
  have some := f.headed
  simp only [List.length_nil] at long
  omega

theorem Message.done {m : List β} (formed : f.Message m) : ¬ f.Awaits m := by
  intro awaits
  obtain ⟨n,sized,short⟩ := awaits.resolve_left (Nat.not_lt.mpr formed.headed)
  cases Option.some.inj (sized.symm.trans formed)
  exact Nat.lt_irrefl _ short

theorem sizeAppend {buffer : List β} (head : f.headLen ≤ buffer.length) (more : List β) :
    f.size (buffer ++ more) = f.size buffer := by
  rw [size,List.take_append_of_le_length head,size]

/-- How many symbols may be read before the reader has to look at the buffer again. -/
def quota (f : Format β) (buffer : List β) : Nat :=
  if buffer.length < f.headLen then f.headLen - buffer.length else (f.size buffer).getD 0 - buffer.length

theorem quotaHead {buffer : List β} (short : buffer.length < f.headLen) :
    f.quota buffer = f.headLen - buffer.length := if_pos short

@[simp] theorem quotaNil : f.quota [] = f.headLen := if_pos f.headed

theorem quotaBody {buffer : List β} {n : Nat} (long : ¬ buffer.length < f.headLen) (sized : f.size buffer = some n) :
    f.quota buffer = n - buffer.length := by
  rw [quota,if_neg long,sized,Option.getD_some]

end Format

structure Reader (τ β : Type) where
  server : τ
  pending : List β
  linked : Bool

variable {f : Format β} {serve : τ → List β → τ × Bool}

/-- The reader looks at its buffer: a whole message is handed over, and the handler says
whether the link is still there; a head that is refused ends the link. -/
def settle (f : Format β) (serve : τ → List β → τ × Bool) (t : τ) (buffer : List β) : Reader τ β :=
  if buffer.length < f.headLen then ⟨t,buffer,true⟩
  else match f.size buffer with
  | none => ⟨t,buffer,false⟩
  | some n => if buffer.length = n then ⟨(serve t buffer).1,[],(serve t buffer).2⟩ else ⟨t,buffer,true⟩

def feed (f : Format β) (serve : τ → List β → τ × Bool) (r : Reader τ β) (b : β) : Reader τ β :=
  if r.linked then settle f serve r.server (r.pending ++ [b]) else r

def feedAll (f : Format β) (serve : τ → List β → τ × Bool) (r : Reader τ β) (stream : List β) : Reader τ β :=
  stream.foldl (feed f serve) r

@[simp] theorem feedNone (r : Reader τ β) : feedAll f serve r [] = r := rfl

@[simp] theorem feedAppend (r : Reader τ β) (first second : List β) :
    feedAll f serve r (first ++ second) = feedAll f serve (feedAll f serve r first) second :=
  List.foldl_append

theorem feedCons (r : Reader τ β) (b : β) (rest : List β) :
    feedAll f serve r (b :: rest) = feedAll f serve (feed f serve r b) rest := rfl

/-- The head is there and is refused. -/
def Refused (f : Format β) (buffer : List β) : Prop := f.headLen ≤ buffer.length ∧ f.size buffer = none

theorem settleRefused {t : τ} {buffer : List β} (refused : Refused f buffer) :
    settle f serve t buffer = ⟨t,buffer,false⟩ := by
  simp only [settle,Nat.not_lt.mpr refused.1,refused.2,if_false]

theorem settleKeeps {t : τ} {buffer : List β} (unfinished : ¬ f.Message buffer) (accepted : ¬ Refused f buffer) :
    settle f serve t buffer = ⟨t,buffer,true⟩ := by
  by_cases short : buffer.length < f.headLen
  · rw [settle,if_pos short]
  · cases sized : f.size buffer with
    | none => exact absurd ⟨Nat.not_lt.mp short,sized⟩ accepted
    | some n =>
      have other : buffer.length ≠ n := by
        rintro rfl
        exact unfinished sized
      simp only [settle,short,sized,other,if_false]

theorem settleAwaits {t : τ} {buffer : List β} (awaits : f.Awaits buffer) :
    settle f serve t buffer = ⟨t,buffer,true⟩ := by
  refine settleKeeps (fun whole => whole.done awaits) (fun refused => ?_)
  · obtain ⟨n,sized,_⟩ := awaits.resolve_left (Nat.not_lt.mpr refused.1)
    rw [refused.2] at sized
    contradiction

theorem settleMessage {t : τ} {m : List β} (formed : f.Message m) :
    settle f serve t m = ⟨(serve t m).1,[],(serve t m).2⟩ := by
  have head : ¬ m.length < f.headLen := Nat.not_lt.mpr formed.headed
  simp only [settle,head,show f.size m = some m.length from formed,if_false,if_true]

/-- A piece of the stream that does not run past the end of the message in the buffer. -/
def Within (f : Format β) (buffer : List β) : Prop :=
  buffer.length < f.headLen ∨ ∀ n, f.size buffer = some n → buffer.length ≤ n

theorem awaitsNil : f.Awaits [] := .inl f.headed

theorem withinAwaits {buffer : List β} (within : Within f buffer) (unfinished : ¬ f.Message buffer)
    (accepted : ¬ Refused f buffer) : f.Awaits buffer := by
  by_cases short : buffer.length < f.headLen
  · exact .inl short
  · cases sized : f.size buffer with
    | none => exact absurd ⟨Nat.not_lt.mp short,sized⟩ accepted
    | some n =>
      refine .inr ⟨n,sized,Nat.lt_of_le_of_ne (within.resolve_left short n sized) ?_⟩
      rintro rfl
      exact unfinished sized

theorem settleReady {t : τ} {buffer : List β} (within : Within f buffer)
    (linked : (settle f serve t buffer).linked = true) : f.Awaits (settle f serve t buffer).pending := by
  by_cases whole : f.Message buffer
  · rw [settleMessage whole]
    exact awaitsNil
  by_cases refused : Refused f buffer
  · rw [settleRefused refused] at linked
    contradiction
  rw [settleKeeps whole refused]
  exact withinAwaits within whole refused

theorem settleServer {t : τ} {buffer : List β} (unfinished : ¬ f.Message buffer) :
    (settle f serve t buffer).server = t := by
  by_cases refused : Refused f buffer
  · rw [settleRefused refused]
  · rw [settleKeeps unfinished refused]

theorem withinAppend {pending piece : List β} (awaits : f.Awaits pending)
    (bounded : piece.length ≤ f.quota pending) : Within f (pending ++ piece) := by
  by_cases short : pending.length < f.headLen
  · right
    intro n sized
    have reached := f.reaches sized
    rw [Format.quotaHead short] at bounded
    simp only [List.length_append]
    omega
  · obtain ⟨n,sized,_⟩ := awaits.resolve_left short
    right
    intro k same
    rw [f.sizeAppend (Nat.not_lt.mp short),sized] at same
    rw [Format.quotaBody short sized] at bounded
    cases Option.some.inj same
    simp only [List.length_append]
    omega

theorem quotaPositive {pending : List β} (awaits : f.Awaits pending) : 0 < f.quota pending := by
  by_cases short : pending.length < f.headLen
  · rw [Format.quotaHead short]
    omega
  · obtain ⟨n,sized,less⟩ := awaits.resolve_left short
    rw [Format.quotaBody short sized]
    omega

/-- One symbol of a longer piece: the message is still not whole. -/
theorem awaitsNext {pending : List β} (awaits : f.Awaits pending) (b : β) (more : 1 < f.quota pending) :
    f.Awaits (pending ++ [b]) ∧ f.quota (pending ++ [b]) = f.quota pending - 1 := by
  have longer : (pending ++ [b]).length = pending.length + 1 := by simp
  by_cases short : pending.length < f.headLen
  · rw [Format.quotaHead short] at more ⊢
    have still : (pending ++ [b]).length < f.headLen := by omega
    refine ⟨.inl still,?_⟩
    rw [Format.quotaHead still]
    omega
  · obtain ⟨n,sized,_⟩ := awaits.resolve_left short
    rw [Format.quotaBody short sized] at more ⊢
    have same : f.size (pending ++ [b]) = some n := by rw [f.sizeAppend (Nat.not_lt.mp short),sized]
    have long : ¬ (pending ++ [b]).length < f.headLen := by omega
    refine ⟨.inr ⟨n,same,by omega⟩,?_⟩
    rw [Format.quotaBody long same]
    omega

/-- A reader that looks at its buffer after a piece only does what one does that looks after every symbol. -/
theorem feedPiece {t : τ} {pending piece : List β} (awaits : f.Awaits pending) (some : piece ≠ [])
    (bounded : piece.length ≤ f.quota pending) :
    feedAll f serve ⟨t,pending,true⟩ piece = settle f serve t (pending ++ piece) := by
  induction piece generalizing pending with
  | nil => contradiction
  | cons b rest ih =>
    rw [feedCons,feed,if_pos rfl]
    by_cases last : rest = []
    · subst last
      rw [feedNone]
    · have more : 1 < f.quota pending := by
        have long := List.length_pos_iff.mpr last
        simp only [List.length_cons] at bounded
        omega
      obtain ⟨still,left⟩ := awaitsNext awaits b more
      rw [settleAwaits still,ih still last]
      · rw [List.append_assoc,List.singleton_append]
      · simp only [List.length_cons] at bounded
        omega

variable (serve) in
theorem feedReady {r : Reader τ β} (ready : r.linked = true → f.Awaits r.pending) (stream : List β) :
    (feedAll f serve r stream).linked = true → f.Awaits (feedAll f serve r stream).pending := by
  induction stream generalizing r with
  | nil => exact ready
  | cons b rest ih =>
    rw [feedCons]
    refine ih fun linked => ?_
    unfold feed at linked ⊢
    split
    · rename_i before
      rw [if_pos before] at linked
      have awaits := ready before
      exact settleReady (withinAppend awaits (quotaPositive awaits)) linked
    · rename_i before
      rw [if_neg before] at linked
      contradiction

theorem feedMessage {t : τ} {m : List β} (formed : f.Message m) :
    feedAll f serve ⟨t,[],true⟩ m = ⟨(serve t m).1,[],(serve t m).2⟩ := by
  have headed := formed.headed
  have headLen : (m.take f.headLen).length = f.headLen := List.length_take_of_le headed
  have some : m.take f.headLen ≠ [] := by
    intro none
    have positive := f.headed
    rw [none,List.length_nil] at headLen
    omega
  have sized : f.size (m.take f.headLen) = Option.some m.length := by
    rw [Format.size,List.take_take,Nat.min_self]
    exact formed
  have first : feedAll f serve ⟨t,[],true⟩ (m.take f.headLen) = settle f serve t (m.take f.headLen) := by
    exact feedPiece awaitsNil some (Nat.le_of_eq (headLen.trans Format.quotaNil.symm))
  by_cases all : m.length = f.headLen
  · rw [List.take_of_length_le (Nat.le_of_eq all)] at first
    rw [first,settleMessage formed]
  · have less : f.headLen < m.length := by omega
    have awaits : f.Awaits (m.take f.headLen) := .inr ⟨m.length,sized,by omega⟩
    have rest : m.drop f.headLen ≠ [] := by
      intro none
      have short := List.drop_eq_nil_iff.mp none
      omega
    conv_lhs => rw [← List.take_append_drop f.headLen m]
    have left : (m.drop f.headLen).length = f.quota (m.take f.headLen) := by
      rw [Format.quotaBody (by omega) sized,List.length_drop,headLen]
    rw [feedAppend,first,settleAwaits awaits,feedPiece awaits rest (Nat.le_of_eq left),List.take_append_drop,
      settleMessage formed]

/-- The handler is given messages until it says that the link is gone. -/
def serveAll (serve : τ → List β → τ × Bool) (t : τ) : List (List β) → τ × Bool
  | [] => (t,true)
  | m :: rest => if (serve t m).2 then serveAll serve (serve t m).1 rest else ((serve t m).1,false)

theorem serveNext (serve : τ → List β → τ × Bool) (t : τ) (done : List (List β)) (m : List β) :
    serveAll serve t (done ++ [m]) =
      if (serveAll serve t done).2 then serve (serveAll serve t done).1 m else serveAll serve t done := by
  induction done generalizing t with
  | nil =>
    simp only [List.nil_append,serveAll,if_true]
    cases served : serve t m with
    | mk next linked => cases linked <;> simp
  | cons head rest ih =>
    by_cases going : (serve t head).2 = true
    · simpa only [List.cons_append,serveAll,going,if_true] using ih _
    · simp [serveAll,going]

/-- The reader that only keeps what it is given. -/
def record (done : List (List β)) (m : List β) : List (List β) × Bool := (done ++ [m],true)

def cut (f : Format β) (stream : List β) : Reader (List (List β)) β := feedAll f record ⟨[],[],true⟩ stream

/-- The reader is where the handler is left by the messages cut from the stream. -/
structure Serves (serve : τ → List β → τ × Bool) (t : τ) (c : Reader (List (List β)) β) (r : Reader τ β) : Prop where
  server : r.server = (serveAll serve t c.server).1
  linked : r.linked = ((serveAll serve t c.server).2 && c.linked)
  pending : r.linked = true → r.pending = c.pending

theorem feedServes {t : τ} {c : Reader (List (List β)) β} {r : Reader τ β} (serves : Serves serve t c r) (b : β) :
    Serves serve t (feed f record c b) (feed f serve r b) := by
  cases going : c.linked with
  | false =>
    have stopped := serves.linked
    rw [going,Bool.and_false] at stopped
    rw [feed,feed,going,stopped,if_neg Bool.false_ne_true,if_neg Bool.false_ne_true]
    exact serves
  | true =>
    have linked := serves.linked
    rw [going,Bool.and_true] at linked
    cases running : r.linked with
    | false =>
      -- The handler stopped earlier; what is cut off later does not reach it.
      rw [running] at linked
      have fixed : serveAll serve t (feed f record c b).server = serveAll serve t c.server := by
        rw [feed,going,if_pos rfl]
        by_cases whole : f.Message (c.pending ++ [b])
        · rw [settleMessage whole,record,serveNext,← linked,if_neg Bool.false_ne_true]
        by_cases refused : Refused f (c.pending ++ [b])
        · rw [settleRefused refused]
        · rw [settleKeeps whole refused]
      have still : feed f serve r b = r := by rw [feed,running,if_neg Bool.false_ne_true]
      rw [still]
      refine ⟨?_,?_,fun linked => absurd linked (by simp [running])⟩
      · rw [fixed]
        exact serves.server
      · rw [fixed,← linked,running,Bool.false_and]
    | true =>
      rw [running] at linked
      rw [feed,feed,going,running,if_pos rfl,if_pos rfl,serves.pending running]
      by_cases whole : f.Message (c.pending ++ [b])
      · rw [settleMessage whole,settleMessage whole]
        refine ⟨?_,?_,fun _ => rfl⟩
        · rw [record,serveNext,← linked,if_pos rfl,serves.server]
        · rw [record,serveNext,← linked,if_pos rfl,serves.server,Bool.and_true]
      by_cases refused : Refused f (c.pending ++ [b])
      · rw [settleRefused refused,settleRefused refused]
        exact ⟨serves.server,by rw [Bool.and_false],fun _ => rfl⟩
      · rw [settleKeeps whole refused,settleKeeps whole refused]
        exact ⟨serves.server,by rw [← linked,Bool.and_true],fun _ => rfl⟩

variable (serve) in
theorem cutServes (t : τ) (stream : List β) :
    Serves serve t (cut f stream) (feedAll f serve ⟨t,[],true⟩ stream) := by
  induction stream using List.reverseRecOn with
  | nil => exact ⟨rfl,rfl,fun _ => rfl⟩
  | append_singleton rest b ih =>
    rw [cut,feedAppend,feedAppend]
    exact feedServes ih b

/-- Nothing of the stream is lost or made up, and what was cut off are messages. -/
structure Parted (f : Format β) (stream : List β) (c : Reader (List (List β)) β) : Prop where
  formed : ∀ m ∈ c.server, f.Message m
  whole : c.server.flatten ++ c.pending <+: stream
  all : c.linked = true → c.server.flatten ++ c.pending = stream
  awaits : c.linked = true → f.Awaits c.pending

theorem cutParted (stream : List β) : Parted f stream (cut f stream) := by
  induction stream using List.reverseRecOn with
  | nil => exact ⟨by simp [cut],List.prefix_rfl,fun _ => rfl,fun _ => awaitsNil⟩
  | append_singleton rest b ih =>
    have awaits := feedReady record (f := f) (r := cut f rest) ih.awaits [b]
    rw [cut,feedAppend,← cut]
    rw [feedCons,feedNone] at awaits ⊢
    cases going : (cut f rest).linked with
    | false =>
      rw [feed,going,if_neg Bool.false_ne_true]
      exact ⟨ih.formed,ih.whole.trans (List.prefix_append _ _),fun linked => absurd linked (by simp [going]),
        fun linked => absurd linked (by simp [going])⟩
    | true =>
      have before := ih.all going
      have longer : (cut f rest).server.flatten ++ ((cut f rest).pending ++ [b]) = rest ++ [b] := by
        rw [← List.append_assoc,before]
      rw [feed,going,if_pos rfl] at awaits ⊢
      by_cases whole : f.Message ((cut f rest).pending ++ [b])
      · rw [settleMessage whole] at awaits ⊢
        have joined : ((cut f rest).server ++ [(cut f rest).pending ++ [b]]).flatten ++ [] = rest ++ [b] := by
          rw [List.append_nil,List.flatten_append,List.flatten_singleton,longer]
        refine ⟨fun m member => ?_,joined ▸ List.prefix_rfl,fun _ => joined,awaits⟩
        rcases List.mem_append.mp member with old | new
        · exact ih.formed m old
        · rw [List.mem_singleton.mp new]
          exact whole
      by_cases refused : Refused f ((cut f rest).pending ++ [b])
      · rw [settleRefused refused] at awaits ⊢
        exact ⟨ih.formed,longer ▸ List.prefix_rfl,fun _ => longer,awaits⟩
      · rw [settleKeeps whole refused] at awaits ⊢
        exact ⟨ih.formed,longer ▸ List.prefix_rfl,fun _ => longer,awaits⟩

theorem awaitsInit {buffer more : List β} (awaits : f.Awaits (buffer ++ more)) : f.Awaits buffer := by
  by_cases short : buffer.length < f.headLen
  · exact .inl short
  · rcases awaits with less | ⟨n,sized,less⟩
    · rw [List.length_append] at less
      omega
    · rw [f.sizeAppend (Nat.not_lt.mp short)] at sized
      rw [List.length_append] at less
      exact .inr ⟨n,sized,by omega⟩

theorem feedAwaits {t : τ} {rest : List β} (awaits : f.Awaits rest) :
    feedAll f serve ⟨t,[],true⟩ rest = ⟨t,rest,true⟩ := by
  induction rest using List.reverseRecOn with
  | nil => rfl
  | append_singleton before b ih =>
    rw [feedAppend,ih (awaitsInit awaits),feedCons,feedNone,feed,if_pos rfl,settleAwaits awaits]

/-- A stream of messages and the beginning of one more is cut at the borders it was made with. -/
theorem cutMessages {sent : List (List β)} {rest : List β} (formed : ∀ m ∈ sent, f.Message m)
    (awaits : f.Awaits rest) : cut f (sent.flatten ++ rest) = ⟨sent,rest,true⟩ := by
  have whole : feedAll f record ⟨[],[],true⟩ sent.flatten = ⟨sent,[],true⟩ := by
    induction sent using List.reverseRecOn with
    | nil => rfl
    | append_singleton before m ih =>
      rw [List.flatten_append,List.flatten_singleton,feedAppend,ih fun k inside => formed k (by simp [inside]),
        feedMessage (formed m (by simp)),record]
  rw [cut,feedAppend,whole,feedAwaits awaits]

/-- What came so far of a stream of messages is whole messages and a beginning of the next. -/
theorem beginningParts {sent : List (List β)} {stream : List β} (formed : ∀ m ∈ sent, f.Message m)
    (begins : stream <+: sent.flatten) :
    ∃ k rest, k ≤ sent.length ∧ stream = (sent.take k).flatten ++ rest ∧ f.Awaits rest := by
  induction sent generalizing stream with
  | nil => exact ⟨0,[],by simp,by simpa using begins,awaitsNil⟩
  | cons m later ih =>
    rw [List.flatten_cons] at begins
    have first : f.Message m := formed m (by simp)
    by_cases short : stream.length < m.length
    · refine ⟨0,stream,by simp,by simp,?_⟩
      have part : stream <+: m := List.prefix_of_prefix_length_le begins (List.prefix_append _ _) (Nat.le_of_lt short)
      obtain ⟨more,rfl⟩ := part
      by_cases head : stream.length < f.headLen
      · exact .inl head
      · refine .inr ⟨_,?_,short⟩
        rw [← f.sizeAppend (Nat.not_lt.mp head) more]
        exact first
    · have part : m <+: stream := List.prefix_of_prefix_length_le (List.prefix_append _ _) begins (by omega)
      obtain ⟨more,rfl⟩ := part
      obtain ⟨k,rest,bound,parts,awaits⟩ := ih (fun x inside => formed x (by simp [inside]))
        ((List.prefix_append_right_inj m).mp begins)
      exact ⟨k + 1,rest,by simpa using bound,by simp [parts],awaits⟩

end HpuCache.Framing
