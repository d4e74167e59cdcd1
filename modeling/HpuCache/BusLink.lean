import HpuCache.ByteText
import HpuCache.FaultRun
import HpuCache.Framing

/-! The bytes of the cluster bus. A node appends its packets to the send buffer of a link and
the connection takes them away in pieces; the other node reads pieces of any size into its
receive buffer, and processes a packet when the buffer holds exactly what the header announced. -/
namespace HpuCache.BusLink
open ByteText FaultRun Framing

/-- What the compiler made of `clusterMsg`. -/
structure Sizes where
  -- `CLUSTERMSG_MIN_LEN`, and the size of `union clusterMsgData`.
  minLen : Nat
  dataLen : Nat
  headed : 8 < minLen

def Sizes.bufLen (z : Sizes) : Nat := z.minLen + z.dataLen

def rcvbufInitLen : Nat := 1024
def rcvbufMaxPrealloc : Nat := 1048576

/-- RCmb -/
def signature : Bytes := [82,67,109,98]

def ntohl (b : Bytes) : Nat := b.foldl (fun v c => v * 256 + c.toNat) 0
def totlen (hdr : Bytes) : Nat := ntohl ((hdr.drop 4).take 4)

structure ClusterLink where
  -- The first `rcvbuf_len` bytes.
  rcvbuf : Bytes
  rcvbufAlloc : Nat

def createClusterLink : ClusterLink := ⟨[],rcvbufInitLen⟩

inductive Fault where
  -- More was asked of `connRead` than its buffer on the stack holds.
  | bufOverflow
  | rcvbufOverflow

abbrev Run := Except Fault

structure Receiver (τ : Type) where
  server : τ
  link : ClusterLink
  -- False after `freeClusterLink`.
  linked : Bool
  -- What the connection holds for the reader, now or later.
  wire : Bytes

/-- One call of `connRead`: so many bytes at most, or an error of the connection. -/
inductive ConnRead where
  | upTo (n : Nat)
  | failed

variable {τ : Type} (z : Sizes) (serve : τ → Bytes → τ × Bool)

/-- How much the next call of `connRead` asks for; nothing when the header is refused. -/
def readlen (rcvbuf : Bytes) : Option Nat :=
  let rcvbuflen := rcvbuf.length % 2^32
  if rcvbuflen < 8 then some (8 - rcvbuflen)
  else if rcvbuflen = 8 ∧ (rcvbuf.take 4 ≠ signature ∨ totlen rcvbuf < z.minLen) then none
  else some (min ((totlen rcvbuf + 2^32 - rcvbuflen) % 2^32) z.bufLen)

def growRcvbuf (link : ClusterLink) (nread : Nat) : Nat :=
  let unused := (link.rcvbufAlloc + 2^64 - link.rcvbuf.length) % 2^64
  if unused < nread then
    let required := link.rcvbuf.length + nread
    if required < rcvbufMaxPrealloc then required * 2 else required + rcvbufMaxPrealloc
  else link.rcvbufAlloc

def appendRcvbuf (link : ClusterLink) (data : Bytes) : Run ClusterLink :=
  let alloc := growRcvbuf link data.length
  if alloc < link.rcvbuf.length + data.length then .error .rcvbufOverflow
  else .ok ⟨link.rcvbuf ++ data,alloc⟩

/-- `clusterProcessPacket` and what follows it. -/
def processPacket (r : Receiver τ) : Receiver τ :=
  let served := serve r.server r.link.rcvbuf
  if served.2 then
    { r with
      server := served.1
      link := ⟨[],if r.link.rcvbufAlloc > rcvbufInitLen then rcvbufInitLen else r.link.rcvbufAlloc⟩ }
  else { r with server := served.1, linked := false }

/-- The bytes that `connRead` returned. -/
def takeBytes (r : Receiver τ) (nread : Nat) : Run (Receiver τ) := do
  let link ← appendRcvbuf r.link (r.wire.take nread)
  let r := { r with link, wire := r.wire.drop nread }
  let rcvbuflen := link.rcvbuf.length % 2^32
  if 8 ≤ rcvbuflen ∧ rcvbuflen = totlen link.rcvbuf then .ok (processPacket serve r) else .ok r

def clusterReadHandler (reads : List ConnRead) (r : Receiver τ) : Run (Receiver τ) :=
  if r.linked then
    match readlen z r.link.rcvbuf with
    | none => .ok { r with linked := false }
    | some readlen =>
      match reads with
      -- No more data ready.
      | [] => .ok r
      | .failed :: _ => .ok { r with linked := false }
      | .upTo n :: rest =>
        let nread := min n (min readlen r.wire.length)
        if z.bufLen < readlen then .error .bufOverflow
        else if n = 0 ∨ r.wire = [] then .ok r
        else if nread = 0 then .ok { r with linked := false }
        else do
          let r ← takeBytes serve r nread
          clusterReadHandler rest r
  else .ok r

/-- Calls of the handler as the connection becomes readable. -/
def readCalls (calls : List (List ConnRead)) (r : Receiver τ) : Run (Receiver τ) :=
  calls.foldlM (fun r reads => clusterReadHandler z serve reads r) r

/-- What the reader makes of the first eight bytes. A packet that is said to end with them is
whole before its signature was looked at. -/
def acceptHead (head : Bytes) : Option Nat :=
  if totlen head = 8 then some 8
  else if head.take 4 = signature ∧ z.minLen ≤ totlen head then some (totlen head) else none

theorem acceptReaches {head : Bytes} {n : Nat} (accepted : acceptHead z head = some n) : 8 ≤ n := by
  have long := z.headed
  unfold acceptHead at accepted
  split at accepted
  · exact Nat.le_of_eq (Option.some.inj accepted)
  · split at accepted
    · cases Option.some.inj accepted
      omega
    · contradiction

theorem headSome : 0 < 8 := by omega

def busFormat : Format UInt8 := ⟨8,acceptHead z,headSome,acceptReaches z⟩

section
variable {z} {serve}

theorem ntohlBound (b : Bytes) : ntohl b < 256 ^ b.length := by
  induction b using List.reverseRecOn with
  | nil => simp [ntohl]
  | append_singleton rest c ih =>
    have byte := c.toNat_lt
    simp only [ntohl,List.foldl_append,List.foldl_cons,List.foldl_nil,List.length_append,List.length_singleton,
      Nat.pow_succ] at ih ⊢
    omega

theorem totlenBound (hdr : Bytes) : totlen hdr < 2^32 := by
  have short : ((hdr.drop 4).take 4).length ≤ 4 := List.length_take_le _ _
  calc totlen hdr < 256 ^ ((hdr.drop 4).take 4).length := ntohlBound _
    _ ≤ 256 ^ 4 := Nat.pow_le_pow_right (by omega) short
    _ = 2^32 := by decide

theorem totlenHead (b : Bytes) : totlen (b.take 8) = totlen b := by
  rw [totlen,totlen,List.drop_take,List.take_take]
  rfl

theorem sizeOf (b : Bytes) : (busFormat z).size b =
    if totlen b = 8 then some 8
    else if b.take 4 = signature ∧ z.minLen ≤ totlen b then some (totlen b) else none := by
  have sig : (b.take 8).take 4 = b.take 4 := by
    rw [List.take_take]
    rfl
  show acceptHead z (b.take 8) = _
  rw [acceptHead,totlenHead,sig]

theorem sizeTotlen {b : Bytes} {n : Nat} (sized : (busFormat z).size b = some n) : n = totlen b := by
  rw [sizeOf] at sized
  split at sized
  · rename_i eight
    rw [eight]
    exact (Option.some.inj sized).symm
  · split at sized
    · exact (Option.some.inj sized).symm
    · contradiction

theorem awaitsCases {b : Bytes} (awaits : (busFormat z).Awaits b) :
    b.length < 8 ∨ (busFormat z).size b = some (totlen b) ∧ 8 ≤ b.length ∧ b.length < totlen b := by
  by_cases short : b.length < 8
  · exact .inl short
  · obtain ⟨n,sized,less⟩ := awaits.resolve_left short
    have same := sizeTotlen sized
    subst same
    exact .inr ⟨sized,by omega,less⟩

/-- Between two reads the code asks for what the format still needs, and never for more than fits. -/
theorem readlenAwaits {b : Bytes} (awaits : (busFormat z).Awaits b) :
    readlen z b = some (min ((busFormat z).quota b) z.bufLen) := by
  have long := z.headed
  have room : z.minLen ≤ z.bufLen := Nat.le_add_right _ _
  rcases awaitsCases awaits with short | ⟨sized,head,less⟩
  · have small : b.length % 2^32 = b.length := Nat.mod_eq_of_lt (by omega)
    have quota : (busFormat z).quota b = 8 - b.length := Format.quotaHead short
    rw [readlen,small,if_pos short,quota]
    congr 1
    omega
  · have bound := totlenBound b
    have small : b.length % 2^32 = b.length := Nat.mod_eq_of_lt (by omega)
    have quota : (busFormat z).quota b = totlen b - b.length := Format.quotaBody (Nat.not_lt.mpr head) sized
    have left : (totlen b + 2^32 - b.length) % 2^32 = totlen b - b.length := by omega
    have accepted : ¬ (b.length = 8 ∧ (b.take 4 ≠ signature ∨ totlen b < z.minLen)) := by
      rintro ⟨eight,bad⟩
      rw [sizeOf,if_neg (by omega)] at sized
      split at sized
      · rename_i good
        rcases bad with unsigned | low
        · exact unsigned good.1
        · omega
      · contradiction
    rw [readlen,small,if_neg (Nat.not_lt.mpr head),if_neg accepted,left,quota]

theorem readlenRefused {b : Bytes} (eight : b.length = 8) (refused : Refused (busFormat z) b) :
    readlen z b = none := by
  have none := refused.2
  rw [sizeOf] at none
  split at none
  · contradiction
  · split at none
    · contradiction
    · rename_i bad
      have bad' : b.take 4 ≠ signature ∨ totlen b < z.minLen := by
        by_cases signed : b.take 4 = signature
        · exact .inr (Nat.not_le.mp fun enough => bad ⟨signed,enough⟩)
        · exact .inl signed
      simp [readlen,eight,bad']

/-- The test for a whole packet, in a buffer that was never filled past its end. -/
theorem wholeIff {b piece : Bytes} (awaits : (busFormat z).Awaits b)
    (bounded : piece.length ≤ (busFormat z).quota b) :
    (8 ≤ (b ++ piece).length % 2^32 ∧ (b ++ piece).length % 2^32 = totlen (b ++ piece)) ↔
      (busFormat z).Message (b ++ piece) := by
  have longer : (b ++ piece).length = b.length + piece.length := List.length_append
  have fits : (b ++ piece).length < 2^32 ∧
      (8 < (b ++ piece).length → (busFormat z).size (b ++ piece) = some (totlen (b ++ piece))) := by
    rcases awaitsCases awaits with short | ⟨sized,head,_⟩
    · have quota : (busFormat z).quota b = 8 - b.length := Format.quotaHead short
      exact ⟨by omega,fun _ => by omega⟩
    · have quota : (busFormat z).quota b = totlen b - b.length := Format.quotaBody (Nat.not_lt.mpr head) sized
      have bound := totlenBound b
      have same : (busFormat z).size (b ++ piece) = some (totlen b) := by
        rw [(busFormat z).sizeAppend head]
        exact sized
      exact ⟨by omega,fun _ => by rw [same,sizeTotlen same]⟩
  rw [Nat.mod_eq_of_lt fits.1]
  constructor
  · rintro ⟨head,whole⟩
    by_cases eight : totlen (b ++ piece) = 8
    · rw [Format.Message,sizeOf,if_pos eight,whole,eight]
    · rw [Format.Message,fits.2 (by omega),← whole]
  · intro whole
    exact ⟨whole.headed,sizeTotlen whole⟩

/-- What is between two reads of one call: the beginning of a packet, or a header that was not checked yet. -/
structure Ready (z : Sizes) (link : ClusterLink) : Prop where
  buffer : (busFormat z).Awaits link.rcvbuf ∨ link.rcvbuf.length = 8 ∧ Refused (busFormat z) link.rcvbuf
  fits : link.rcvbuf.length ≤ link.rcvbufAlloc
  least : rcvbufInitLen ≤ link.rcvbufAlloc
  most : link.rcvbufAlloc ≤ link.rcvbuf.length + rcvbufMaxPrealloc

theorem readyBound {link : ClusterLink} (ready : Ready z link) : link.rcvbuf.length < 2^32 := by
  have bound := totlenBound link.rcvbuf
  rcases ready.buffer with awaits | ⟨eight,_⟩
  · rcases awaitsCases awaits with short | ⟨_,_,less⟩ <;> omega
  · omega

theorem readyFresh : Ready z createClusterLink := ⟨.inl awaitsNil,by decide,by decide,by decide⟩

/-- The buffer always has room, and no more than a fixed amount beyond what came. -/
theorem growRoom {link : ClusterLink} (ready : Ready z link) (nread : Nat) :
    link.rcvbuf.length + nread ≤ growRcvbuf link nread ∧ rcvbufInitLen ≤ growRcvbuf link nread ∧
      growRcvbuf link nread ≤ link.rcvbuf.length + nread + rcvbufMaxPrealloc := by
  have bound := readyBound ready
  have fits := ready.fits
  have least := ready.least
  have most := ready.most
  simp only [rcvbufInitLen,rcvbufMaxPrealloc] at least most ⊢
  have unused : (link.rcvbufAlloc + 2^64 - link.rcvbuf.length) % 2^64 = link.rcvbufAlloc - link.rcvbuf.length := by
    omega
  by_cases room : link.rcvbufAlloc - link.rcvbuf.length < nread
  · by_cases small : link.rcvbuf.length + nread < 1048576
    · have grown : growRcvbuf link nread = (link.rcvbuf.length + nread) * 2 := by
        simp only [growRcvbuf,unused,room,rcvbufMaxPrealloc,small,if_true]
      omega
    · have grown : growRcvbuf link nread = link.rcvbuf.length + nread + 1048576 := by
        simp only [growRcvbuf,unused,room,rcvbufMaxPrealloc,small,if_true,if_false]
      omega
  · have kept : growRcvbuf link nread = link.rcvbufAlloc := by
      simp only [growRcvbuf,unused,room,if_false]
    omega

theorem appendRoom {link : ClusterLink} (ready : Ready z link) (data : Bytes) :
    appendRcvbuf link data = .ok ⟨link.rcvbuf ++ data,growRcvbuf link data.length⟩ := by
  have room := (growRoom ready data.length).1
  rw [appendRcvbuf,if_neg (by omega)]

/-- The state of the code and that of a reader that takes one byte at a time. -/
structure Mirrors (serve : τ → Bytes → τ × Bool) (z : Sizes) (r : Receiver τ) (reader : Reader τ UInt8) : Prop where
  server : reader.server = r.server
  -- An error of the connection ends the link early.
  linked : r.linked = true → Ready z r.link ∧
    reader = settle (busFormat z) serve r.server r.link.rcvbuf

theorem mirrorsFresh (t : τ) (wire : Bytes) :
    Mirrors serve z ⟨t,createClusterLink,true,wire⟩ ⟨t,[],true⟩ :=
  ⟨rfl,fun _ => ⟨readyFresh,(settleAwaits awaitsNil).symm⟩⟩

theorem processMirrors {r : Receiver τ} (least : rcvbufInitLen ≤ r.link.rcvbufAlloc)
    (whole : (busFormat z).Message r.link.rcvbuf) :
    Mirrors serve z (processPacket serve r) (settle (busFormat z) serve r.server r.link.rcvbuf) := by
  have shrunk : (if r.link.rcvbufAlloc > rcvbufInitLen then rcvbufInitLen else r.link.rcvbufAlloc) =
      rcvbufInitLen := by
    split <;> omega
  rw [settleMessage whole,processPacket]
  cases valid : (serve r.server r.link.rcvbuf).2 with
  | false => exact ⟨by simp,fun linked => by simp at linked⟩
  | true =>
    simp only [if_true,shrunk]
    exact ⟨rfl,fun _ => ⟨readyFresh,(settleAwaits awaitsNil).symm⟩⟩

theorem processWire (r : Receiver τ) : (processPacket serve r).wire = r.wire := by
  simp only [processPacket]
  split <;> rfl

variable (serve) in
/-- One successful `connRead`, in step with a reader that takes the same bytes one at a time. -/
theorem takeMirrors {r : Receiver τ} {nread : Nat} (ready : Ready z r.link)
    (awaits : (busFormat z).Awaits r.link.rcvbuf) (some : 0 < nread) (there : nread ≤ r.wire.length)
    (bounded : nread ≤ (busFormat z).quota r.link.rcvbuf) :
    ∃ r', takeBytes serve r nread = .ok r' ∧ r'.wire = r.wire.drop nread ∧
      Mirrors serve z r' (feedAll (busFormat z) serve ⟨r.server,r.link.rcvbuf,true⟩ (r.wire.take nread)) := by
  have count : (r.wire.take nread).length = nread := List.length_take_of_le there
  have present : r.wire.take nread ≠ [] := by
    intro none
    rw [none,List.length_nil] at count
    omega
  have within : (r.wire.take nread).length ≤ (busFormat z).quota r.link.rcvbuf := by omega
  have room := growRoom ready nread
  have longer : (r.link.rcvbuf ++ r.wire.take nread).length = r.link.rcvbuf.length + nread := by
    rw [List.length_append,count]
  have test := wholeIff awaits within
  rw [feedPiece awaits present within]
  simp only [takeBytes,appendRoom ready,FaultRun.valueBind,count]
  by_cases whole : (busFormat z).Message (r.link.rcvbuf ++ r.wire.take nread)
  · rw [if_pos (test.mpr whole)]
    exact ⟨_,rfl,processWire _,processMirrors room.2.1 whole⟩
  · rw [if_neg (mt test.mp whole)]
    refine ⟨_,rfl,rfl,?_,fun _ => ⟨⟨?_,by rw [longer]; exact room.1,room.2.1,by rw [longer]; exact room.2.2⟩,rfl⟩⟩
    · exact settleServer whole
    · by_cases refused : Refused (busFormat z) (r.link.rcvbuf ++ r.wire.take nread)
      · refine .inr ⟨?_,refused⟩
        rcases awaitsCases awaits with short | ⟨sized,head,_⟩
        · have quota : (busFormat z).quota r.link.rcvbuf = 8 - r.link.rcvbuf.length := Format.quotaHead short
          have eight : 8 ≤ (r.link.rcvbuf ++ r.wire.take nread).length := refused.1
          rw [longer] at eight ⊢
          omega
        · have none := refused.2
          rw [(busFormat z).sizeAppend head,sized] at none
          contradiction
      · exact .inl (withinAwaits (withinAppend awaits within) whole refused)

/-- Some bytes were taken from the connection, and did what they do to a reader that takes one at a time. -/
def Handled (z : Sizes) (serve : τ → Bytes → τ × Bool) (r : Receiver τ) (reader : Reader τ UInt8)
    (r' : Receiver τ) : Prop :=
  ∃ n, n ≤ r.wire.length ∧ r'.wire = r.wire.drop n ∧
    Mirrors serve z r' (feedAll (busFormat z) serve reader (r.wire.take n)) ∧
    (r'.linked = true → (busFormat z).Awaits r'.link.rcvbuf)

theorem handledFreed {r : Receiver τ} {reader : Reader τ UInt8} (mirrors : Mirrors serve z r reader) :
    Handled z serve r reader { r with linked := false } :=
  ⟨0,Nat.zero_le _,rfl,⟨mirrors.server,fun linked => Bool.noConfusion linked⟩,fun linked => Bool.noConfusion linked⟩

theorem handledSame {r : Receiver τ} {reader : Reader τ UInt8} (mirrors : Mirrors serve z r reader)
    (awaits : r.linked = true → (busFormat z).Awaits r.link.rcvbuf) : Handled z serve r reader r :=
  ⟨0,Nat.zero_le _,rfl,mirrors,awaits⟩

theorem handledNext {r s t : Receiver τ} {reader : Reader τ UInt8} {n : Nat} (there : n ≤ r.wire.length)
    (wire : s.wire = r.wire.drop n)
    (rest : Handled z serve s (feedAll (busFormat z) serve reader (r.wire.take n)) t) :
    Handled z serve r reader t := by
  obtain ⟨k,bound,left,mirrors,awaits⟩ := rest
  have total : r.wire.take (n + k) = r.wire.take n ++ s.wire.take k := by rw [wire,List.take_add]
  refine ⟨n + k,?_,?_,?_,awaits⟩
  · rw [wire,List.length_drop] at bound
    omega
  · rw [left,wire,List.drop_drop]
  · rw [total,feedAppend]
    exact mirrors

theorem handlerHandled (reads : List ConnRead) {r : Receiver τ} {reader : Reader τ UInt8}
    (mirrors : Mirrors serve z r reader) :
    ∃ r', clusterReadHandler z serve reads r = .ok r' ∧ Handled z serve r reader r' := by
  induction reads generalizing r reader with
  | nil =>
    unfold clusterReadHandler
    cases linked : r.linked with
    | false => exact ⟨r,by simp,handledSame mirrors (by simp [linked])⟩
    | true =>
      obtain ⟨ready,_⟩ := mirrors.linked linked
      rcases ready.buffer with awaits | ⟨eight,refused⟩
      · simp only [if_true,readlenAwaits awaits]
        exact ⟨_,rfl,handledSame mirrors fun _ => awaits⟩
      · simp only [if_true,readlenRefused eight refused]
        exact ⟨_,rfl,handledFreed mirrors⟩
  | cons read rest ih =>
    unfold clusterReadHandler
    cases linked : r.linked with
    | false => exact ⟨r,by simp,handledSame mirrors (by simp [linked])⟩
    | true =>
      obtain ⟨ready,same⟩ := mirrors.linked linked
      rcases ready.buffer with awaits | ⟨eight,refused⟩
      · simp only [if_true,readlenAwaits awaits]
        rw [settleAwaits awaits] at same
        subst same
        cases read with
        | failed => exact ⟨_,rfl,handledFreed mirrors⟩
        | upTo want =>
          have quota := quotaPositive awaits
          have buf : 0 < z.bufLen := Nat.lt_of_lt_of_le (by have := z.headed; omega) (Nat.le_add_right _ _)
          simp only [show ¬ z.bufLen < min ((busFormat z).quota r.link.rcvbuf) z.bufLen by omega,if_false]
          by_cases idle : want = 0 ∨ r.wire = []
          · rw [if_pos idle]
            exact ⟨r,rfl,handledSame mirrors fun _ => awaits⟩
          · have wire : 0 < r.wire.length := List.length_pos_iff.mpr fun none => idle (.inr none)
            rw [if_neg idle,if_neg (by omega)]
            obtain ⟨s,took,left,follows⟩ := takeMirrors serve ready awaits
              (show 0 < min want (min (min ((busFormat z).quota r.link.rcvbuf) z.bufLen) r.wire.length) by omega)
              (by omega) (by omega)
            obtain ⟨t,done,handled⟩ := ih follows
            rw [took,FaultRun.valueBind,done]
            exact ⟨t,rfl,handledNext (by omega) left handled⟩
      · simp only [if_true,readlenRefused eight refused]
        exact ⟨_,rfl,handledFreed mirrors⟩

theorem handlerAwaits {r r' : Receiver τ} {reader : Reader τ UInt8} (handled : Handled z serve r reader r') :
    ∃ taken, r.wire = taken ++ r'.wire ∧
      Mirrors serve z r' (feedAll (busFormat z) serve reader taken) ∧
      (r'.linked = true → (busFormat z).Awaits r'.link.rcvbuf) := by
  obtain ⟨n,_,wire,mirrors,awaits⟩ := handled
  refine ⟨r.wire.take n,?_,mirrors,awaits⟩
  rw [wire,List.take_append_drop]

end

/-- The bytes taken so far decide what the server has seen, and what is left in the buffer. -/
structure Served (t : τ) (taken : Bytes) (r : Receiver τ) : Prop where
  server : r.server = (serveAll serve t (cut (busFormat z) taken).server).1
  rest : r.linked = true → r.link.rcvbuf = (cut (busFormat z) taken).pending
  accepted : r.linked = true → (serveAll serve t (cut (busFormat z) taken).server).2 = true ∧
    (cut (busFormat z) taken).linked = true
  -- What the node keeps for a peer is what the peer sent, and a fixed amount.
  bounded : r.linked = true → r.link.rcvbufAlloc ≤ r.link.rcvbuf.length + rcvbufMaxPrealloc

/-- What is sure of a packet when `clusterProcessPacket` gets it. -/
def Announced (m : Bytes) : Prop :=
  totlen m = m.length ∧ (m.length = 8 ∨ m.take 4 = signature ∧ z.minLen ≤ m.length)

section
variable {z} {serve}

theorem messageAnnounced {m : Bytes} (formed : (busFormat z).Message m) : Announced z m := by
  have same := sizeTotlen formed
  refine ⟨same.symm,?_⟩
  rw [Format.Message,sizeOf] at formed
  split at formed
  · exact .inl (Option.some.inj formed).symm
  · split at formed
    · rename_i good
      exact .inr ⟨good.1,by omega⟩
    · contradiction

theorem mirrorsServed {t : τ} {taken : Bytes} {r : Receiver τ}
    (mirrors : Mirrors serve z r (feedAll (busFormat z) serve ⟨t,[],true⟩ taken))
    (awaits : r.linked = true → (busFormat z).Awaits r.link.rcvbuf) : Served z serve t taken r := by
  have serves := cutServes serve (f := busFormat z) t taken
  have state (linked : r.linked = true) :
      feedAll (busFormat z) serve ⟨t,[],true⟩ taken = ⟨r.server,r.link.rcvbuf,true⟩ := by
    rw [(mirrors.linked linked).2,settleAwaits (awaits linked)]
  refine ⟨mirrors.server.symm.trans serves.server,fun linked => ?_,fun linked => ?_,fun linked => ?_⟩
  · have pending := serves.pending
    rw [state linked] at pending
    exact pending rfl
  · have both := serves.linked
    rw [state linked,eq_comm,Bool.and_eq_true_iff] at both
    exact both
  · exact (mirrors.linked linked).1.most

theorem readCallsMirror (calls : List (List ConnRead)) {r : Receiver τ} {reader : Reader τ UInt8}
    (mirrors : Mirrors serve z r reader) (awaits : r.linked = true → (busFormat z).Awaits r.link.rcvbuf) :
    ∃ r' taken, readCalls z serve calls r = .ok r' ∧ r.wire = taken ++ r'.wire ∧
      Mirrors serve z r' (feedAll (busFormat z) serve reader taken) ∧
      (r'.linked = true → (busFormat z).Awaits r'.link.rcvbuf) := by
  induction calls generalizing r reader with
  | nil => exact ⟨r,[],rfl,rfl,mirrors,awaits⟩
  | cons reads rest ih =>
    obtain ⟨s,done,handled⟩ := handlerHandled reads mirrors
    obtain ⟨first,wire,follows,awaits⟩ := handlerAwaits handled
    obtain ⟨t,second,ended,left,mirrors,awaits⟩ := ih follows awaits
    refine ⟨t,first ++ second,?_,?_,?_,awaits⟩
    · rw [readCalls,List.foldlM_cons,done]
      exact ended
    · rw [wire,left,List.append_assoc]
    · rw [feedAppend]
      exact mirrors

end

theorem segmentsRead (t : τ) (wire : Bytes) (calls : List (List ConnRead)) :
    ∃ r taken, readCalls z serve calls ⟨t,createClusterLink,true,wire⟩ = .ok r ∧ wire = taken ++ r.wire ∧
      Served z serve t taken r := by
  have fresh : Mirrors serve z ⟨t,createClusterLink,true,wire⟩ ⟨t,[],true⟩ := mirrorsFresh t wire
  obtain ⟨r,taken,done,split,mirrors,awaits⟩ := readCallsMirror calls fresh fun _ => awaitsNil
  exact ⟨r,taken,done,split,mirrorsServed mirrors awaits⟩

/-- `clusterProcessPacket` looks at the type and at lengths inside the data before it knows that the
packet has them. Behind a short packet it finds what `memory` holds when that packet is handed over. -/
def handOver (handle : τ → Bytes → Bytes → τ × Bool) (memory : Nat → Bytes) (seen : τ × List Bytes)
    (packet : Bytes) : (τ × List Bytes) × Bool :=
  let handled := handle seen.1 packet (memory seen.2.length)
  ((handled.1,seen.2 ++ [packet]),handled.2)

section
variable {z} {handle : τ → Bytes → Bytes → τ × Bool} {memory : Nat → Bytes}

/-- The handler gets the packets in turn, and none after the one that ended the link. -/
theorem handedOver (seen : τ × List Bytes) (packets : List Bytes) :
    ∃ k, (serveAll (handOver handle memory) seen packets).1.2 = seen.2 ++ packets.take k ∧
      ((serveAll (handOver handle memory) seen packets).2 = true → k = packets.length) := by
  induction packets generalizing seen with
  | nil => exact ⟨0,by simp [serveAll],fun _ => rfl⟩
  | cons packet rest ih =>
    by_cases stays : (handOver handle memory seen packet).2 = true
    · obtain ⟨k,log,all⟩ := ih (handOver handle memory seen packet).1
      refine ⟨k + 1,?_,fun kept => ?_⟩
      · rw [serveAll,if_pos stays,log]
        simp [handOver]
      · rw [serveAll,if_pos stays] at kept
        rw [all kept,List.length_cons]
    · refine ⟨1,?_,fun kept => ?_⟩
      · rw [serveAll,if_neg stays]
        simp [handOver]
      · rw [serveAll,if_neg stays] at kept
        contradiction

end

/-- What the server was handed of the bytes taken from a peer, and what is left of them. -/
structure Handed (taken : Bytes) (r : Receiver (τ × List Bytes)) : Prop where
  packets : r.server.2 <+: (cut (busFormat z) taken).server
  -- Only a link that is gone leaves a packet out.
  all : r.linked = true → r.server.2 = (cut (busFormat z) taken).server ∧ (cut (busFormat z) taken).linked = true
  rest : r.linked = true → r.link.rcvbuf = (cut (busFormat z) taken).pending
  announced : ∀ packet ∈ r.server.2, Announced z packet
  -- What the node keeps for a peer is what the peer sent, and a fixed amount.
  bounded : r.linked = true → r.link.rcvbufAlloc ≤ r.link.rcvbuf.length + rcvbufMaxPrealloc

/-- However the connection cuts the bytes of a peer into pieces, whatever they are and whatever lies
behind a packet: no write leaves a buffer, the server is handed the packets that the bytes themselves
tell apart, and every one of them has the length it announced. -/
theorem packetsHanded (handle : τ → Bytes → Bytes → τ × Bool) (memory : Nat → Bytes) (t : τ) (wire : Bytes)
    (calls : List (List ConnRead)) :
    ∃ r taken, readCalls z (handOver handle memory) calls ⟨(t,[]),createClusterLink,true,wire⟩ = .ok r ∧
      wire = taken ++ r.wire ∧ Handed z taken r := by
  obtain ⟨r,taken,done,split,served⟩ := segmentsRead z (handOver handle memory) (t,[]) wire calls
  obtain ⟨k,log,all⟩ := @handedOver _ handle memory (t,[]) (cut (busFormat z) taken).server
  rw [← served.server,List.nil_append] at log
  have first : r.server.2 <+: (cut (busFormat z) taken).server := by
    rw [log]
    exact List.take_prefix _ _
  refine ⟨r,taken,done,split,first,fun linked => ?_,served.rest,fun packet member => ?_,served.bounded⟩
  · obtain ⟨kept,going⟩ := served.accepted linked
    exact ⟨by rw [log,all kept,List.take_length],going⟩
  · exact messageAnnounced ((cutParted taken).formed packet (first.subset member))

end HpuCache.BusLink
