import HpuCache.BusLink

/-! Both ends of a cluster link. Packets queued at one end are processed at the other one by
one, in order and whole, wherever the writes and the reads of the connection break them. -/
namespace HpuCache.LinkDelivery
open ByteText FaultRun Framing BusLink

/-- A packet as the functions that send one leave it. -/
structure BusMessage (z : Sizes) where
  bytes : Bytes
  signed : bytes.take 4 = signature
  sized : totlen bytes = bytes.length
  least : z.minLen ≤ bytes.length

structure Sender where
  sndbuf : Bytes
  -- `clusterWriteHandler` is installed.
  writing : Bool
  linked : Bool

def clusterSendMessage (s : Sender) (msg : Bytes) : Sender where
  sndbuf := s.sndbuf ++ msg
  writing := if s.sndbuf.length = 0 ∧ msg.length ≠ 0 then true else s.writing
  linked := s.linked

/-- What `connWrite` took, at most `n` bytes; a short write frees the link. -/
def clusterWriteHandler (s : Sender) (n : Nat) : Sender × Bytes :=
  let nwritten := min n s.sndbuf.length
  if nwritten = 0 then (⟨[],false,false⟩,[])
  else
    let sndbuf := s.sndbuf.drop nwritten
    ({ s with sndbuf, writing := if sndbuf.length = 0 then false else s.writing },s.sndbuf.take nwritten)

structure Channel (τ : Type) where
  sender : Sender
  receiver : Receiver τ
  -- The packets queued so far, oldest first.
  sent : List Bytes

inductive Event (z : Sizes) where
  | send (m : BusMessage z)
  | writable (n : Nat)
  | readable (reads : List ConnRead)

variable {τ : Type} {z : Sizes} (serve : τ → Bytes → τ × Bool)

def step (c : Channel τ) : Event z → Run (Channel τ)
  | .send m =>
    if c.sender.linked then
      .ok { c with sender := clusterSendMessage c.sender m.bytes, sent := c.sent ++ [m.bytes] }
    else .ok c
  | .writable n =>
    if c.sender.linked ∧ c.sender.writing then
      let written := clusterWriteHandler c.sender n
      .ok { c with
        sender := written.1
        receiver := { c.receiver with wire := c.receiver.wire ++ written.2 } }
    else .ok c
  | .readable reads => do
    let receiver ← clusterReadHandler z serve reads c.receiver
    .ok { c with receiver }

def connected (t : τ) : Channel τ := ⟨⟨[],false,true⟩,⟨t,createClusterLink,true,[]⟩,[]⟩

/-- The server of the receiver has seen the first packets that were queued, and no others. The rest
is on its way while the link is up, and all is seen when nothing is. -/
structure Delivered (t : τ) (c : Channel τ) : Prop where
  seen : ∃ k ≤ c.sent.length, c.receiver.server = (serveAll serve t (c.sent.take k)).1 ∧
    (c.sender.linked = true → c.receiver.linked = true →
      (c.sent.drop k).flatten = c.receiver.link.rcvbuf ++ c.receiver.wire ++ c.sender.sndbuf)
  all : c.sender.linked = true → c.receiver.linked = true → c.sender.sndbuf = [] → c.receiver.wire = [] →
    c.receiver.link.rcvbuf = [] ∧ serveAll serve t c.sent = (c.receiver.server,true)
  -- A buffer with bytes in it is never left without a handler that empties it.
  armed : c.sender.linked = true → (c.sender.writing = true ↔ c.sender.sndbuf ≠ [])

structure Flow (t : τ) (c : Channel τ) (taken : Bytes) : Prop where
  formed : ∀ m ∈ c.sent, (busFormat z).Message m
  before : taken ++ c.receiver.wire <+: c.sent.flatten
  whole : c.sender.linked = true → taken ++ c.receiver.wire ++ c.sender.sndbuf = c.sent.flatten
  mirrors : Mirrors serve z c.receiver (feedAll (busFormat z) serve ⟨t,[],true⟩ taken)
  awaits : c.receiver.linked = true → (busFormat z).Awaits c.receiver.link.rcvbuf
  armed : c.sender.linked = true → (c.sender.writing = true ↔ c.sender.sndbuf ≠ [])

section
variable {serve} {t : τ} {c : Channel τ} {taken : Bytes}

theorem BusMessage.formed (m : BusMessage z) : (busFormat z).Message m.bytes := by
  have long := z.headed
  have least := m.least
  rw [Format.Message,sizeOf,m.sized,if_neg (by omega),if_pos ⟨m.signed,least⟩]

theorem flowConnected (t : τ) : Flow (z := z) serve t (connected t) [] :=
  ⟨by simp [connected],List.nil_prefix,fun _ => rfl,mirrorsFresh t [],fun _ => awaitsNil,by simp [connected]⟩

theorem flowSend (flow : Flow (z := z) serve t c taken) (linked : c.sender.linked = true) (m : BusMessage z) :
    Flow (z := z) serve t
      { c with sender := clusterSendMessage c.sender m.bytes, sent := c.sent ++ [m.bytes] } taken := by
  have some : m.bytes ≠ [] := m.formed.nonempty
  have longer : (c.sent ++ [m.bytes]).flatten = c.sent.flatten ++ m.bytes := by simp
  refine ⟨fun k member => ?_,?_,fun _ => ?_,⟨flow.mirrors.server,flow.mirrors.linked⟩,flow.awaits,fun _ => ?_⟩
  · rcases List.mem_append.mp member with old | new
    · exact flow.formed k old
    · rw [List.mem_singleton.mp new]
      exact m.formed
  · rw [longer]
    exact flow.before.trans (List.prefix_append _ _)
  · rw [longer,← flow.whole linked]
    simp only [clusterSendMessage,List.append_assoc]
  · have armed := flow.armed linked
    by_cases empty : c.sender.sndbuf = []
    · simp [clusterSendMessage,empty,some]
    · simp [clusterSendMessage,empty,some,armed.mpr empty]

/-- The receiver does not look at what only arrived. -/
theorem mirrorsArrived {r : Receiver τ} {reader : Reader τ UInt8} (mirrors : Mirrors serve z r reader)
    (wire : Bytes) : Mirrors serve z { r with wire } reader :=
  ⟨mirrors.server,mirrors.linked⟩

theorem flowWrite (flow : Flow (z := z) serve t c taken) (linked : c.sender.linked = true) (n : Nat) :
    Flow (z := z) serve t
      { c with
        sender := (clusterWriteHandler c.sender n).1
        receiver := { c.receiver with wire := c.receiver.wire ++ (clusterWriteHandler c.sender n).2 } } taken := by
  unfold clusterWriteHandler
  by_cases short : min n c.sender.sndbuf.length = 0
  · simp only [short,if_true,List.append_nil]
    exact ⟨flow.formed,flow.before,fun gone => Bool.noConfusion gone,mirrorsArrived flow.mirrors _,flow.awaits,
      fun gone => Bool.noConfusion gone⟩
  · simp only [short,if_false]
    have whole := flow.whole linked
    have parts : taken ++ (c.receiver.wire ++ c.sender.sndbuf.take (min n c.sender.sndbuf.length)) ++
        c.sender.sndbuf.drop (min n c.sender.sndbuf.length) = c.sent.flatten := by
      rw [← whole]
      simp only [List.append_assoc,List.take_append_drop]
    refine ⟨flow.formed,?_,fun _ => parts,mirrorsArrived flow.mirrors _,flow.awaits,fun _ => ?_⟩
    · exact ⟨_,parts⟩
    · have armed := flow.armed linked
      have some : c.sender.sndbuf ≠ [] := by
        intro none
        simp [none] at short
      by_cases done : c.sender.sndbuf.drop (min n c.sender.sndbuf.length) = []
      · simp [done]
      · simp only [List.length_eq_zero_iff,done,if_false,ne_eq,not_false_eq_true,iff_true]
        exact armed.mpr some

theorem flowRead (flow : Flow (z := z) serve t c taken) (reads : List ConnRead) :
    ∃ r more, clusterReadHandler z serve reads c.receiver = .ok r ∧
      Flow (z := z) serve t { c with receiver := r } (taken ++ more) := by
  obtain ⟨r,done,handled⟩ := handlerHandled reads flow.mirrors
  obtain ⟨more,wire,mirrors,awaits⟩ := handlerAwaits handled
  have split : taken ++ more ++ r.wire = taken ++ c.receiver.wire := by rw [wire,List.append_assoc]
  refine ⟨r,more,done,flow.formed,?_,fun linked => ?_,?_,awaits,flow.armed⟩
  · rw [split]
    exact flow.before
  · rw [split]
    exact flow.whole linked
  · rw [feedAppend]
    exact mirrors

theorem flowStep (flow : Flow (z := z) serve t c taken) (event : Event z) :
    ∃ c' more, step serve c event = .ok c' ∧ Flow (z := z) serve t c' (taken ++ more) := by
  cases event with
  | send m =>
    by_cases linked : c.sender.linked = true
    · refine ⟨_,[],by rw [step,if_pos linked],?_⟩
      rw [List.append_nil]
      exact flowSend flow linked m
    · refine ⟨c,[],by rw [step,if_neg linked],?_⟩
      rwa [List.append_nil]
  | writable n =>
    by_cases ready : c.sender.linked = true ∧ c.sender.writing = true
    · refine ⟨_,[],by rw [step,if_pos ready],?_⟩
      rw [List.append_nil]
      exact flowWrite flow ready.1 n
    · refine ⟨c,[],by rw [step,if_neg ready],?_⟩
      rwa [List.append_nil]
  | readable reads =>
    obtain ⟨r,more,done,next⟩ := flowRead flow reads
    exact ⟨_,more,by rw [step,done]; rfl,next⟩

theorem flowRun (events : List (Event z)) (flow : Flow (z := z) serve t c taken) :
    ∃ c' more, events.foldlM (step serve) c = .ok c' ∧ Flow (z := z) serve t c' (taken ++ more) := by
  induction events generalizing c taken with
  | nil => exact ⟨c,[],rfl,by rwa [List.append_nil]⟩
  | cons event rest ih =>
    obtain ⟨next,first,stepped,flow⟩ := flowStep flow event
    obtain ⟨last,second,ended,flow⟩ := ih flow
    refine ⟨last,first ++ second,?_,?_⟩
    · rw [List.foldlM_cons,stepped]
      exact ended
    · rwa [← List.append_assoc]

theorem flowDelivered (flow : Flow (z := z) serve t c taken) : Delivered serve t c := by
  have served := mirrorsServed flow.mirrors flow.awaits
  obtain ⟨k,rest,bound,parts,awaits⟩ := beginningParts flow.formed ((List.prefix_append _ _).trans flow.before)
  have cuts : cut (busFormat z) taken = ⟨c.sent.take k,rest,true⟩ := by
    rw [parts]
    exact cutMessages (fun m member => flow.formed m (List.mem_of_mem_take member)) awaits
  have server := served.server
  have pending := served.rest
  have accepted := served.accepted
  simp only [cuts] at server pending accepted
  have left (sender : c.sender.linked = true) (linked : c.receiver.linked = true) :
      (c.sent.drop k).flatten = c.receiver.link.rcvbuf ++ c.receiver.wire ++ c.sender.sndbuf := by
    have whole := flow.whole sender
    rw [parts] at whole
    conv_rhs at whole => rw [← List.take_append_drop k c.sent,List.flatten_append]
    rw [pending linked]
    simp only [List.append_assoc] at whole ⊢
    exact (List.append_cancel_left whole).symm
  refine ⟨⟨k,bound,server,left⟩,fun sender linked written read => ?_,flow.armed⟩
  have last := left sender linked
  rw [written,read,List.append_nil,List.append_nil,pending linked] at last
  -- Were a packet left, its bytes would all be in the buffer.
  have finished : c.sent.drop k = [] := by
    cases later : c.sent.drop k with
    | nil => rfl
    | cons m others =>
      have formed : (busFormat z).Message m := flow.formed m (List.mem_of_mem_drop (by rw [later]; simp))
      rw [later,List.flatten_cons] at last
      rw [← last] at awaits
      exact absurd (awaitsInit awaits) formed.done
  rw [finished,List.flatten_nil] at last
  have everything : c.sent.take k = c.sent := List.take_of_length_le (List.drop_eq_nil_iff.mp finished)
  rw [everything] at server accepted
  exact ⟨by rw [pending linked,← last],Prod.ext server.symm (accepted linked).1⟩

end

/-- Every run of a link, with any handler at the receiver and any sizes of writes and reads. -/
theorem busDelivers (t : τ) (events : List (Event z)) :
    ∃ c, events.foldlM (step serve) (connected t) = .ok c ∧ Delivered serve t c := by
  have fresh : Flow (z := z) serve t (connected t) [] := flowConnected t
  obtain ⟨c,taken,done,flow⟩ := flowRun events fresh
  exact ⟨c,done,flowDelivered flow⟩

def shortSizes : Sizes := ⟨12,8,by decide⟩

def shortPing : BusMessage shortSizes :=
  ⟨[82,67,109,98,0,0,0,12,0,1,0,0],by decide,by decide,by decide⟩

/-- Two packets, written and read in pieces that end in the middle of a header and of a packet. -/
def brokenRun : List (Event shortSizes) :=
  [.send shortPing,.writable 5,.readable [.upTo 3,.upTo 9],.send shortPing,.writable 16,
    .readable [.upTo 4,.upTo 100,.upTo 100],.writable 100,.readable [.upTo 100,.upTo 1,.upTo 100]]

theorem busDeliversShown :
    ∃ c, brokenRun.foldlM (step record) (connected []) = .ok c ∧ Delivered record [] c ∧
      c.sent = [shortPing.bytes,shortPing.bytes] ∧ c.receiver.server = c.sent := by
  obtain ⟨c,done,delivered⟩ := busDelivers (z := shortSizes) record [] brokenRun
  have ends : ((brokenRun.foldlM (step record) (connected [])).toOption.map fun c => (c.sent,c.receiver.server)) =
      some ([shortPing.bytes,shortPing.bytes],[shortPing.bytes,shortPing.bytes]) := by decide +kernel
  rw [done] at ends
  have same := Option.some.inj ends
  rw [Prod.mk.injEq] at same
  exact ⟨c,done,delivered,same.1,same.2.trans same.1.symm⟩

end HpuCache.LinkDelivery
