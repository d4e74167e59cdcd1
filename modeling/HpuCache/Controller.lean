import HpuCache.FaultRun
import HpuCache.TextLines
import HpuCache.WordSplit

/-! The controller of slot moves: a message is split by `strtok` and its fields are pasted into
a line for the shell. The buffer has whatever the allocation held behind the bytes received. -/
namespace HpuCache.Controller
open ByteText FaultRun TextLines WordSplit

inductive Fault where
  -- No zero byte ends the string in the buffer.
  | unterminated
  -- The copy and its zero byte are longer than the block allocated for it.
  | heapOverflow
  -- `atoi` or a format reads a field that is not there.
  | absentField
  deriving DecidableEq

inductive Action where
  | closed
  | rejected
  | ran (line : Bytes)
  deriving DecidableEq

/-- `MOVE`. -/
def textMove : Bytes := [77,79,86,69]
/-- `/home/homie/share/bin/redis-cli`. -/
def cliBin : Bytes := [47,104,111,109,101,47,104,111,109,105,101,47,115,104,97,114,101,47,98,105,110,47,114,101,100,105,115,45,99,108,105]
/-- `--cluster`. -/
def textCluster : Bytes := [45,45,99,108,117,115,116,101,114]
/-- `slot`. -/
def textSlot : Bytes := [115,108,111,116]
/-- `--cluster-aim-slot`. -/
def textAimSlot : Bytes := [45,45,99,108,117,115,116,101,114,45,97,105,109,45,115,108,111,116]
/-- `--cluster-from`. -/
def textFrom : Bytes := [45,45,99,108,117,115,116,101,114,45,102,114,111,109]
/-- `--cluster-to`. -/
def textTo : Bytes := [45,45,99,108,117,115,116,101,114,45,116,111]

structure MoveRequest where
  slot : Bytes
  ip : Bytes
  port : Bytes
  src : Bytes
  dest : Bytes

def MoveRequest.fields (r : MoveRequest) : List Bytes := [r.slot,r.ip,r.port,r.src,r.dest]

def cliWords (r : MoveRequest) : List Bytes :=
  [textCluster,textSlot,r.ip ++ 58 :: r.port,textAimSlot,r.slot,textFrom,r.src,textTo,r.dest]

def blank (c : UInt8) : Bool := c == 32

/-- `strtok` on what the call before it has left. -/
def strtok (delim : UInt8) (saved : Bytes) : Option Bytes × Bytes := nextWord (· == delim) saved

def number : Option Bytes → Except Fault Int
  | none => .error .absentField
  | some token => .ok (atoi token)

def moveOneSlotToDest (slot : Int) (source target workerIp : Option Bytes) (workerPort : Int) : Except Fault Bytes :=
  match workerIp,source,target with
  | some ip,some src,some dest => .ok (joined cliBin (cliWords ⟨signedDecimal slot,ip,signedDecimal workerPort,src,dest⟩))
  | _,_,_ => .error .absentField

/-- `usable` is the size of the block that a request for so many bytes is given. -/
def moveSlotHandler (usable : Nat → Nat) (buf : Bytes) : Except Fault Bytes :=
  if usable buf.length < buf.length + 1 then .error .heapOverflow
  else do
    let name := strtok 58 buf
    let first := strtok 32 name.2
    let slot ← number first.1
    let ip := strtok 32 first.2
    let third := strtok 32 ip.2
    let port ← number third.1
    let src := strtok 32 third.2
    let dest := strtok 32 src.2
    moveOneSlotToDest slot src.1 dest.1 ip.1 port

def dealBuffer (usable : Nat → Nat) (buffer : Bytes) : Except Fault Action :=
  if strncmpEqual buffer textMove 4 then
    if 0 ∈ buffer then (moveSlotHandler usable (cstr buffer)).map .ran else .error .unterminated
  else .ok .rejected

/-- The result of `anetRead` is -1 when the socket ran dry, also after bytes that it has stored. -/
def readFromClient (usable : Nat → Nat) (nread : Int) (received behind : Bytes) : Except Fault Action :=
  if nread = 0 then .ok .closed else dealBuffer usable (received ++ behind)

/-- What separates the words of a shell line. -/
def shellBlank (c : UInt8) : Bool := c == 32 || c == 9

/-- Newline, the operators, the expansions, the quotes and the patterns: these do not stand for themselves. -/
def shellBytes : Bytes := [10,124,38,59,60,62,40,41,36,96,92,34,39,42,63,91]

def shellSpecial (c : UInt8) : Bool := shellBytes.contains c

/-- A comment or a tilde prefix is one at the start of a word only. -/
def shellWord (w : Bytes) : Bool := w.all (!shellSpecial ·) && w.head? != some 35 && w.head? != some 126

/-- The words of the one command that a line is when each of its bytes stands for itself. -/
def shellWords (line : Bytes) : Option (List Bytes) :=
  if (words shellBlank line).all shellWord then some (words shellBlank line) else none

/-- The name, a colon, and five fields with blanks between them. -/
def WellFormed (received : Bytes) (r : MoveRequest) : Prop :=
  ∃ body, cstr received = textMove ++ 58 :: body ∧ words blank body = r.fields

/-- Nothing is run, or the one command that the message stands for. -/
def Safe (received : Bytes) : Except Fault Action → Prop
  | .ok (.ran line) => ∃ r, WellFormed received r ∧ shellWords line = some (cliBin :: cliWords r)
  | .ok _ => True
  | .error _ => False

def IntText (s : Bytes) : Prop := ∃ v : Int, -2 ^ 31 ≤ v ∧ v < 2 ^ 31 ∧ s = signedDecimal v

def Literal (w : Bytes) : Prop := shellWord w = true ∧ 9 ∉ w

/-- Nothing but tabs is added to the last field by what is in memory behind the message. -/
def Ended (received behind : Bytes) : Prop :=
  0 ∈ received ∨ received.getLast? = some 32 ∨ ∀ c ∈ (cstr behind).takeWhile (!blank ·), c = 9

structure Fits (usable : Nat → Nat) (received behind : Bytes) (r : MoveRequest) : Prop where
  wellFormed : WellFormed received r
  slot : IntText r.slot
  port : IntText r.port
  literal : Literal r.ip ∧ Literal r.src ∧ Literal r.dest
  ended : Ended received behind
  terminated : 0 ∈ received ++ behind
  room : (cstr (received ++ behind)).length < usable (cstr (received ++ behind)).length

section tokens
variable {usable : Nat → Nat} {buf line : Bytes}

theorem tokenHead (saved : Bytes) : (strtok 32 saved).1 = (words blank saved).head? := by
  rcases nextCases blank saved with ⟨none,next⟩ | ⟨w,rest,next,all⟩
  · rw [none,show strtok 32 saved = _ from next]
    rfl
  · rw [all,show strtok 32 saved = _ from next]
    rfl

theorem tokenTail (saved : Bytes) : words blank (strtok 32 saved).2 = (words blank saved).tail := by
  rcases nextCases blank saved with ⟨none,next⟩ | ⟨w,rest,next,all⟩
  · rw [none,show strtok 32 saved = _ from next]
    rfl
  · rw [all,show strtok 32 saved = _ from next]
    rfl

def printed (r : MoveRequest) : MoveRequest :=
  { r with slot := signedDecimal (atoi r.slot), port := signedDecimal (atoi r.port) }

/-- The five tokens behind the first colon, with the numbers printed anew. -/
theorem handlerIff : moveSlotHandler usable buf = .ok line ↔ buf.length < usable buf.length ∧
    ∃ r rest, words blank (strtok 58 buf).2 = MoveRequest.fields r ++ rest ∧
      line = joined cliBin (cliWords (printed r)) := by
  rw [moveSlotHandler]
  by_cases full : usable buf.length < buf.length + 1
  · simp only [if_pos full]
    exact iff_of_false (fun run => nomatch run) fun both => by omega
  rw [if_neg full,and_iff_right (by omega)]
  simp only [tokenHead,tokenTail]
  constructor
  · intro run
    generalize words blank (strtok 58 buf).2 = all at run ⊢
    rcases all with _ | ⟨slot,_ | ⟨ip,_ | ⟨port,_ | ⟨src,_ | ⟨dest,rest⟩⟩⟩⟩⟩
    iterate 5 exact nomatch run
    exact ⟨⟨slot,ip,port,src,dest⟩,rest,rfl,(Except.ok.inj run).symm⟩
  · rintro ⟨r,rest,all,rfl⟩
    rw [all]
    rfl

end tokens

section shell

theorem blankTab {c : UInt8} : shellBlank c = false ↔ c ≠ 32 ∧ c ≠ 9 := by simp [shellBlank]

structure Ordinary (c : UInt8) : Prop where
  special : shellSpecial c = false
  blank : shellBlank c = false
  comment : c ≠ 35
  tilde : c ≠ 126

theorem digitOrdinary {c : UInt8} (number : c = 45 ∨ isDigit c = true) : Ordinary c := by
  have apart {d : UInt8} (other : d ≠ 45 ∧ isDigit d = false) : c ≠ d := by
    rintro rfl
    rcases number with dash | digit
    · exact other.1 dash
    · exact Bool.false_ne_true (other.2.symm.trans digit)
  have bytes : ∀ d ∈ shellBytes, d ≠ 45 ∧ isDigit d = false := by decide +kernel
  refine ⟨?_,blankTab.mpr ⟨apart (by decide),apart (by decide)⟩,apart (by decide),apart (by decide)⟩
  rw [shellSpecial,Bool.eq_false_iff,ne_eq,List.contains_iff_mem]
  exact fun inside => apart (bytes c inside) rfl

theorem signedClean (v : Int) : ∀ c ∈ signedDecimal v, shellBlank c = false :=
  fun _ inside => (digitOrdinary (signedByte inside)).blank

theorem wordIff {w : Bytes} : shellWord w = true ↔
    (∀ c ∈ w, shellSpecial c = false) ∧ w.head? ≠ some 35 ∧ w.head? ≠ some 126 := by
  simp [shellWord,and_assoc]

theorem signedWord (v : Int) : shellWord (signedDecimal v) = true := by
  refine wordIff.mpr ⟨fun c inside => (digitOrdinary (signedByte inside)).special,fun first => ?_,fun first => ?_⟩
  · exact (digitOrdinary (signedByte (List.mem_of_mem_head? first))).comment rfl
  · exact (digitOrdinary (signedByte (List.mem_of_mem_head? first))).tilde rfl

theorem lineWords (r : MoveRequest) : words shellBlank (joined cliBin (cliWords r)) =
    [cliBin,textCluster,textSlot] ++ words shellBlank (r.ip ++ 58 :: r.port) ++ [textAimSlot] ++
      words shellBlank r.slot ++
      [textFrom] ++ words shellBlank r.src ++ [textTo] ++ words shellBlank r.dest := by
  have fixed : words shellBlank cliBin = [cliBin] ∧ words shellBlank textCluster = [textCluster] ∧
      words shellBlank textSlot = [textSlot] ∧ words shellBlank textAimSlot = [textAimSlot] ∧
      words shellBlank textFrom = [textFrom] ∧ words shellBlank textTo = [textTo] := by decide
  obtain ⟨cli,cluster,slot,aim,source,target⟩ := fixed
  rw [joined,wordsJoined (by decide)]
  simp [cliWords,cli,cluster,slot,aim,source,target]

theorem atoiRange (s : Bytes) : -2 ^ 31 ≤ atoi s ∧ atoi s < 2 ^ 31 := by
  have low := Int.le_bmod (x := strtoll s) (m := 2 ^ 32) (by decide)
  have high := Int.bmod_lt (x := strtoll s) (m := 2 ^ 32) (by decide)
  rw [atoi]
  omega

theorem intText {s : Bytes} : IntText s ↔ signedDecimal (atoi s) = s := by
  constructor
  · rintro ⟨v,low,high,rfl⟩
    rw [atoiSigned low high]
  · exact fun same => ⟨atoi s,(atoiRange s).1,(atoiRange s).2,same.symm⟩

theorem literalClean {w : Bytes} (single : ∀ c ∈ w, blank c = false) (literal : Literal w) :
    ∀ c ∈ w, shellBlank c = false := by
  intro c inside
  refine blankTab.mpr ⟨by simpa [blank] using single c inside,?_⟩
  rintro rfl
  exact literal.2 inside

theorem addressWord {ip port : Bytes} (filled : ip ≠ []) : shellWord (ip ++ 58 :: port) = true ↔
    shellWord ip = true ∧ ∀ c ∈ port, shellSpecial c = false := by
  have colon : shellSpecial 58 = false := by decide
  have first : (ip ++ 58 :: port).head? = ip.head? := List.head?_append_of_ne_nil ip filled
  simp only [wordIff,first,List.mem_append,List.mem_cons,or_imp,forall_and,forall_eq,colon,true_and]
  constructor
  · exact fun ⟨⟨own,rest⟩,heads⟩ => ⟨⟨own,heads⟩,rest⟩
  · exact fun ⟨⟨own,heads⟩,rest⟩ => ⟨⟨own,rest⟩,heads⟩

theorem wordAlone {d x : Bytes} (clean : ∀ c ∈ d, shellBlank c = false) (filled : d ≠ []) :
    words shellBlank (d ++ x) = [d] ↔ ∀ c ∈ x, shellBlank c = true := by
  constructor
  · intro alone
    have flat := wordsFlat (p := shellBlank) (d ++ x)
    have own : d.filter (fun c => !shellBlank c) = d := List.filter_eq_self.mpr fun c inside => by simp [clean c inside]
    rw [alone,List.flatten_singleton,List.filter_append,own,eq_comm,List.append_right_eq_self,List.filter_eq_nil_iff] at flat
    simpa using flat
  · intro all
    rw [wordsAppend (.inr fun c first => all c (List.mem_of_mem_head? first)),wordsOne clean filled,wordsNone.mpr all]
    rfl

/-- The shell reads the line as the request, when each field is its own text for the shell. -/
theorem shellIff {r : MoveRequest} {extra : Bytes} (fields : ∀ w ∈ r.fields, w ≠ [] ∧ ∀ c ∈ w, blank c = false)
    (open_ : ∀ c ∈ extra, blank c = false) :
    shellWords (joined cliBin (cliWords (printed { r with dest := r.dest ++ extra }))) = some (cliBin :: cliWords r) ↔
      (IntText r.slot ∧ IntText r.port ∧ Literal r.ip ∧ Literal r.src ∧ Literal r.dest) ∧ ∀ c ∈ extra, c = 9 := by
  have found := lineWords (printed { r with dest := r.dest ++ extra })
  have tabs (c : UInt8) (inside : c ∈ extra) : shellBlank c = true ↔ c = 9 := by
    have single := open_ c inside
    simp only [blank,beq_eq_false_iff_ne] at single
    simp [shellBlank,single]
  simp only [MoveRequest.fields,List.forall_mem_cons,printed] at fields found ⊢
  obtain ⟨⟨slotFilled,slotSingle⟩,⟨ipFilled,ipSingle⟩,⟨portFilled,portSingle⟩,⟨srcFilled,srcSingle⟩,
    ⟨destFilled,destSingle⟩,-⟩ := fields
  rw [wordsOne (signedClean _) (signedFilled _)] at found
  constructor
  · intro read
    rw [shellWords] at read
    split at read
    · next all =>
      rw [Option.some.inj read] at all
      have inWords {w : Bytes} (inside : w ∈ cliBin :: cliWords r) :
          (∀ c ∈ w, shellBlank c = false) ∧ shellWord w = true :=
        ⟨(wordsMem (Option.some.inj read ▸ inside)).2,List.all_eq_true.mp all w inside⟩
      obtain ⟨addressClean,address⟩ := inWords (w := r.ip ++ 58 :: r.port) (by simp [cliWords])
      obtain ⟨srcClean,srcWord⟩ := inWords (w := r.src) (by simp [cliWords])
      obtain ⟨destClean,destWord⟩ := inWords (w := r.dest) (by simp [cliWords])
      have ipClean (c : UInt8) (inside : c ∈ r.ip) := addressClean c (List.mem_append_left _ inside)
      have whole : ∀ c ∈ r.ip ++ 58 :: signedDecimal (atoi r.port), shellBlank c = false :=
        List.forall_mem_append.mpr ⟨ipClean,List.forall_mem_cons.mpr ⟨by decide,signedClean _⟩⟩
      rw [Option.some.inj read,wordsOne whole (by simp),wordsOne srcClean srcFilled] at found
      simp only [cliWords,List.cons_append,List.nil_append,List.cons.injEq,true_and,List.append_cancel_left_eq] at found
      obtain ⟨port,slot,alone⟩ := found
      have untabbed {w : Bytes} (clean : ∀ c ∈ w, shellBlank c = false) : 9 ∉ w := fun inside =>
        (blankTab.mp (clean 9 inside)).2 rfl
      refine ⟨⟨intText.mpr slot.symm,intText.mpr port.symm,⟨((addressWord ipFilled).mp address).1,untabbed ipClean⟩,
        ⟨srcWord,untabbed srcClean⟩,⟨destWord,untabbed destClean⟩⟩,fun c inside => (tabs c inside).mp ?_⟩
      exact (wordAlone destClean destFilled).mp alone.symm c inside
    · exact nomatch read
  · rintro ⟨⟨slot,port,ip,src,dest⟩,extraTabs⟩
    rw [intText] at slot port
    have portClean := port ▸ signedClean (atoi r.port)
    have whole : ∀ c ∈ r.ip ++ 58 :: r.port, shellBlank c = false :=
      List.forall_mem_append.mpr ⟨literalClean ipSingle ip,List.forall_mem_cons.mpr ⟨by decide,portClean⟩⟩
    have alone := (wordAlone (literalClean destSingle dest) destFilled).mpr fun c inside =>
      (tabs c inside).mpr (extraTabs c inside)
    rw [slot,port,wordsOne whole (by simp),wordsOne (literalClean srcSingle src) srcFilled,alone] at found
    have address := (addressWord ipFilled).mpr ⟨ip.1,(wordIff.mp (port ▸ signedWord (atoi r.port))).1⟩
    have fixed : [cliBin,textCluster,textSlot,textAimSlot,textFrom,textTo].all shellWord = true := by decide
    simp only [List.all_cons,List.all_nil,Bool.and_eq_true] at fixed
    have slotWord := slot ▸ signedWord (atoi r.slot)
    rw [shellWords,slot,port,found]
    simp [cliWords,fixed,address,slotWord,src.1,dest.1]

end shell

section message
variable {received behind : Bytes} {r : MoveRequest}

theorem cstrAppend (front back : Bytes) : cstr (front ++ back) = cstr front ++ if 0 ∈ front then [] else cstr back := by
  induction front with
  | nil => rfl
  | cons c rest ih =>
    by_cases zero : c = 0
    · simp [cstr,zero]
    · have keep (s : Bytes) : cstr (c :: s) = c :: cstr s := by simp [cstr,zero]
      rw [List.cons_append,keep,keep,ih]
      simp [Ne.symm zero]

/-- What the memory behind the message adds to the last field. -/
def extraOf (received behind : Bytes) : Bytes :=
  if 0 ∈ received ∨ received.getLast? = some 32 then [] else (cstr behind).takeWhile (!blank ·)

theorem extraOpen : ∀ c ∈ extraOf received behind, blank c = false := by
  intro c inside
  rw [extraOf] at inside
  split at inside
  · exact absurd inside List.not_mem_nil
  · simpa using List.mem_takeWhile_imp inside

theorem endedIff : Ended received behind ↔ ∀ c ∈ extraOf received behind, c = 9 := by
  rw [Ended,← or_assoc,extraOf]
  split
  · next closed => simp [closed]
  · next open_ => simp [open_]

theorem fieldsFilled (wellFormed : WellFormed received r) : ∀ w ∈ r.fields, w ≠ [] ∧ ∀ c ∈ w, blank c = false := by
  obtain ⟨body,-,all⟩ := wellFormed
  exact fun w inside => wordsMem (all ▸ inside)

/-- The tokens are the fields of the message; the last one may be longer. -/
theorem tokensGrown (wellFormed : WellFormed received r) : ∃ rest,
    words blank (strtok 58 (cstr (received ++ behind))).2 =
    MoveRequest.fields { r with dest := r.dest ++ extraOf received behind } ++ rest := by
  obtain ⟨body,shape,all⟩ := wellFormed
  have named (tail : Bytes) : (strtok 58 (textMove ++ 58 :: body ++ tail)).2 = body ++ tail := rfl
  rw [cstrAppend,shape,named]
  by_cases zero : 0 ∈ received
  · exact ⟨[],by simp [zero,extraOf,all,MoveRequest.fields]⟩
  rw [if_neg zero]
  have free : cstr received = received := cstrZeroFree fun c inside clash => zero (clash ▸ inside)
  have filled : body ≠ [] := by
    rintro rfl
    exact nomatch all
  obtain ⟨c,final⟩ : ∃ c, body.getLast? = some c := ⟨_,List.getLast?_eq_some_getLast filled⟩
  have last : received.getLast? = some c := by
    rw [← free,shape,List.getLast?_append,List.getLast?_cons,final]
    rfl
  by_cases ended : c = 32
  · subst ended
    refine ⟨words blank (cstr behind),?_⟩
    have closed (d : UInt8) (here : body.getLast? = some d) : blank d = true := by
      cases final.symm.trans here
      rfl
    rw [wordsAppend (.inl closed),all]
    simp [extraOf,last,MoveRequest.fields]
  · have inside : blank c = false := by simpa [blank] using ended
    obtain ⟨init,w,own,more⟩ := wordsExtend final inside (cstr behind)
    have parts : init ++ [w] = [r.slot,r.ip,r.port,r.src] ++ [r.dest] := own.symm.trans all
    obtain ⟨rfl,lastWord⟩ := List.append_inj' parts rfl
    cases lastWord
    refine ⟨words blank ((cstr behind).dropWhile (!blank ·)),?_⟩
    rw [more]
    simp [extraOf,last,zero,ended,MoveRequest.fields]

theorem sameRequest {r g : MoveRequest} {rest more : List Bytes}
    (same : r.fields ++ rest = g.fields ++ more) : r = g := by
  obtain ⟨slot,ip,port,src,dest⟩ := r
  cases g
  simp_all [MoveRequest.fields]

/-- A message is harmless exactly when it is none, or a whole one: the five fields are there, they are what the
shell and `atoi` read from them, and the buffer holds nothing that the last one could go on with. -/
theorem controllerSafe (usable : Nat → Nat) (nread : Int) (received behind : Bytes) :
    Safe received (readFromClient usable nread received behind) ↔
      nread = 0 ∨ strncmpEqual (received ++ behind) textMove 4 = false ∨ ∃ r, Fits usable received behind r := by
  rw [readFromClient]
  split
  · next closed => exact iff_of_true trivial (.inl closed)
  next open_ =>
  rw [or_iff_right open_,dealBuffer]
  split
  swap
  · next other => exact iff_of_true trivial (.inl (by simpa using other))
  next named =>
  rw [or_iff_right (by simp [named])]
  split
  swap
  · next endless => exact iff_of_false id fun ⟨r,fits⟩ => endless fits.terminated
  next terminated =>
  constructor
  · intro safe
    cases run : moveSlotHandler usable (cstr (received ++ behind)) with
    | error e =>
      rw [run] at safe
      exact safe.elim
    | ok line =>
      rw [run] at safe
      obtain ⟨r,wellFormed,read⟩ := safe
      obtain ⟨room,g,rest,tokens,rfl⟩ := handlerIff.mp run
      obtain ⟨more,grown⟩ := @tokensGrown received behind r wellFormed
      cases sameRequest (tokens.symm.trans grown)
      obtain ⟨⟨slot,port,ip,src,dest⟩,tabs⟩ := (shellIff (fieldsFilled wellFormed) extraOpen).mp read
      exact ⟨r,wellFormed,slot,port,⟨ip,src,dest⟩,endedIff.mpr tabs,terminated,room⟩
  · rintro ⟨r,fits⟩
    obtain ⟨more,grown⟩ := @tokensGrown received behind r fits.wellFormed
    rw [handlerIff.mpr ⟨fits.room,_,more,grown,rfl⟩]
    obtain ⟨ip,src,dest⟩ := fits.literal
    exact ⟨r,fits.wellFormed,(shellIff (fieldsFilled fits.wellFormed) extraOpen).mpr
      ⟨⟨fits.slot,fits.port,ip,src,dest⟩,endedIff.mp fits.ended⟩⟩

/-- `MOVE: 0 h 1 s d`, sent with its zero byte. -/
def wholeMessage : Bytes := [77,79,86,69,58,32,48,32,104,32,49,32,115,32,100,0]

example : ∃ line, readFromClient (· + 1) wholeMessage.length wholeMessage [120] = .ok (.ran line) ∧
    shellWords line = some (cliBin :: cliWords ⟨[48],[104],[49],[115],[100]⟩) :=
  ⟨_,rfl,by decide +kernel⟩

/-- `MOVE: 0 h 1 s d;x`: the last field ends the command and begins another one. -/
def twoCommands : Bytes := [77,79,86,69,58,32,48,32,104,32,49,32,115,32,100,59,120,0]

theorem fieldEndsCommand :
    readFromClient (· + 1) twoCommands.length twoCommands [] = .ok (.ran (joined cliBin (cliWords
      ⟨[48],[104],[49],[115],[100,59,120]⟩))) ∧
    ¬ Safe twoCommands (readFromClient (· + 1) twoCommands.length twoCommands []) ∧
    readFromClient (· + 1) 5 [77,79,86,69,0] [] = .error .absentField := by
  have run : readFromClient (· + 1) twoCommands.length twoCommands [] = .ok (.ran (joined cliBin (cliWords
      ⟨[48],[104],[49],[115],[100,59,120]⟩))) := by decide +kernel
  refine ⟨run,?_,by decide +kernel⟩
  rw [run]
  rintro ⟨r,-,read⟩
  have other : shellWords (joined cliBin (cliWords ⟨[48],[104],[49],[115],[100,59,120]⟩)) = none := by decide +kernel
  exact nomatch other.symm.trans read

end message
end HpuCache.Controller
