import HpuCache.Crc64
import HpuCache.TextLines

/-! Data that carry their checksum: the payload in which DUMP and MIGRATE give a value to RESTORE,
and the saved file, which is summed while it passes through a stream. -/
namespace HpuCache.SavedData
open ByteText ShiftRegister Crc64 TextLines

def rdbVersion : Nat := 9

/-- `saved` is the type and the serialized object, `next` the address of the buffer. -/
def createDumpPayload (order : ByteOrder) (next : Nat) (saved : Bytes) : Bytes :=
  let payload := saved ++ [UInt8.ofNat (rdbVersion % 256),UInt8.ofNat (rdbVersion / 256 % 256)]
  payload ++ memrev64ifbe order (memoryBytes order (crc64 order next 0#64 payload))

def verifyDumpPayload (order : ByteOrder) (skipChecksumValidation : Bool) (next : Nat) (p : Bytes) : Bool :=
  if p.length < 10 then false
  else
    let footer := p.drop (p.length - 10)
    let rdbver := (footer.getD 1 0).toNat * 256 + (footer.getD 0 0).toNat
    if rdbver > rdbVersion then false
    else if skipChecksumValidation then true
    else
      let crc := crc64 order next 0#64 (p.take (p.length - 8))
      decide (memrev64ifbe order (memoryBytes order crc) = footer.drop 2)

structure Settings where
  order : ByteOrder
  rdbChecksum : Bool
  skipChecksumValidation : Bool
  maxProcessingChunk : Nat
  deriving DecidableEq, Repr

def updateCksum (s : Settings) (next : Nat) (cksum : BitVec 64) (buf : Bytes) : BitVec 64 :=
  if s.rdbChecksum then crc64 s.order next cksum buf else cksum

def bytesToWrite (s : Settings) (len : Nat) : Nat :=
  if s.maxProcessingChunk ≠ 0 ∧ s.maxProcessingChunk < len then s.maxProcessingChunk else len

theorem chunkSome (s : Settings) {len : Nat} (some : 0 < len) : 0 < bytesToWrite s len := by
  rw [bytesToWrite]
  split <;> omega

/-- The loop of `rioWrite` and of `rioRead`: the checksum after a buffer has passed in chunks. -/
def rioPass (s : Settings) (next : Nat) (cksum : BitVec 64) (buf : Bytes) : BitVec 64 :=
  if buf = [] then cksum
  else
    let len := bytesToWrite s buf.length
    rioPass s (next + len) (updateCksum s next cksum (buf.take len)) (buf.drop len)
termination_by buf.length
decreasing_by
  rename_i some
  have long := List.length_pos_iff.mpr some
  have chunk := chunkSome s long
  rw [List.length_drop]
  omega

/-- The checksum of a stream after these buffers, each with its address. -/
def streamed (s : Settings) (buffers : List (Nat × Bytes)) : BitVec 64 :=
  buffers.foldl (fun cksum buf => rioPass s buf.1 cksum buf.2) 0#64

def textRedis : Bytes := [82,69,68,73,83]
def opcodeEof : UInt8 := 255

/-- Each buffer that is written comes with its address; `body` is what lies between the header and
the mark of the end. -/
def rdbSaveRio (s : Settings) (magicAt : Nat) (body : List (Nat × Bytes)) (eofAt : Nat) : Bytes :=
  let writes := (magicAt,textRedis ++ digitsText 4 rdbVersion) :: (body ++ [(eofAt,[opcodeEof])])
  writes.flatMap Prod.snd ++ memrev64ifbe s.order (memoryBytes s.order (streamed s writes))

/-- The version in the nine bytes of the header; none when the load ends there. -/
def rdbHeader (buf : Bytes) : Option Int :=
  if buf.take 5 ≠ textRedis then none
  else
    let rdbver := atoi (buf.drop 5)
    if rdbver < 1 ∨ rdbver > rdbVersion then none else some rdbver

/-- The checks of `rdbLoadRio` at the beginning and at the end: `head` is the header, `reads` what its
loop reads up to an end mark, and `trailer` the next eight bytes. -/
def rdbLoadRio (s : Settings) (head : Nat × Bytes) (reads : List (Nat × Bytes)) (trailer : Bytes) : Bool :=
  match rdbHeader head.2 with
  | none => false
  | some rdbver =>
    if rdbver ≥ 5 then
      let expected := streamed s (head :: reads)
      if s.rdbChecksum ∧ s.skipChecksumValidation = false then
        let cksum := readWord s.order (memrev64ifbe s.order trailer)
        if cksum = 0#64 then true else decide (cksum = expected)
      else true
    else true

section dump

/-- What a payload must be to pass, whatever the machine. -/
structure Sound (p : Bytes) : Prop where
  long : 10 ≤ p.length
  version : (p.getD (p.length - 9) 0).toNat * 256 + (p.getD (p.length - 10) 0).toNat ≤ rdbVersion
  cleared : feed turned 0#64 (bits p) = 0#64

theorem verifiedIff (order : ByteOrder) (next : Nat) (p : Bytes) : verifyDumpPayload order false next p = true ↔ Sound p := by
  rw [verifyDumpPayload]
  by_cases long : p.length < 10
  · rw [if_pos long]
    exact ⟨fun no => absurd no (by decide),fun sound => absurd sound.long (by omega)⟩
  · have place (k : Nat) : (p.drop (p.length - 10)).getD k 0 = p.getD (p.length - 10 + k) 0 := by
      rw [List.getD_eq_getElem?_getD,List.getD_eq_getElem?_getD,List.getElem?_drop]
    have foot : (p.drop (p.length - 10)).drop 2 = p.drop (p.length - 8) := by
      rw [List.drop_drop,show p.length - 10 + 2 = p.length - 8 by omega]
    have eight : (p.drop (p.length - 8)).length = 8 := by rw [List.length_drop]; omega
    have clears := checksumClears order next (p.take (p.length - 8)) eight
    rw [List.take_append_drop] at clears
    simp only [if_neg long,place,foot,Nat.add_zero,show p.length - 10 + 1 = p.length - 9 by omega]
    by_cases version : (p.getD (p.length - 9) 0).toNat * 256 + (p.getD (p.length - 10) 0).toNat > rdbVersion
    · rw [if_pos version]
      exact ⟨fun no => absurd no (by decide),fun sound => absurd sound.version (by omega)⟩
    · rw [if_neg version,if_neg Bool.false_ne_true,decide_eq_true_iff,storedBytes,← clears]
      exact ⟨fun cleared => ⟨by omega,by omega,cleared⟩,Sound.cleared⟩

theorem createdSound (order : ByteOrder) (next : Nat) (saved : Bytes) : Sound (createDumpPayload order next saved) := by
  rw [createDumpPayload,storedBytes]
  generalize size : saved ++ [UInt8.ofNat (rdbVersion % 256),UInt8.ofNat (rdbVersion / 256 % 256)] = payload
  have eight := wordBytesLength 8 (crc64 order next 0#64 payload)
  have long : payload.length = saved.length + 2 := by rw [← size,List.length_append]; rfl
  have whole : (payload ++ wordBytes 8 (crc64 order next 0#64 payload)).length = saved.length + 10 := by
    rw [List.length_append,eight,long]
  refine ⟨by omega,?_,(checksumClears order next payload eight).mpr rfl⟩
  rw [whole,List.getD_append _ _ _ _ (by omega),List.getD_append _ _ _ _ (by omega),← size,
    List.getD_append_right _ _ _ _ (by omega),List.getD_append_right _ _ _ _ (by omega),
    show saved.length + 10 - 9 - saved.length = 1 by omega,show saved.length + 10 - 10 - saved.length = 0 by omega]
  decide

theorem skippedToo (order : ByteOrder) (skip : Bool) (next : Nat) {p : Bytes} (sound : Sound p) :
    verifyDumpPayload order skip next p = true := by
  have checked := (verifiedIff order next p).mpr sound
  cases skip with
  | false => exact checked
  | true =>
    simp only [verifyDumpPayload] at checked ⊢
    split at checked <;> rename_i long
    · contradiction
    · rw [if_neg long]
      split at checked <;> rename_i version
      · contradiction
      · rw [if_neg version,if_pos trivial]

/-- A payload passes on any machine, and what was damaged in a row of at most 64 bits passes on
none, wherever the damage is. -/
theorem payloadGuarded (sender receiver : ByteOrder) (skip : Bool) (here there : Nat) :
    (∀ saved, verifyDumpPayload receiver skip there (createDumpPayload sender here saved) = true) ∧
      ∀ p q, verifyDumpPayload sender false here p = true → Burst p q → verifyDumpPayload receiver false there q = false := by
  constructor
  · intro saved
    exact skippedToo receiver skip there (createdSound sender here saved)
  · intro p q accepted burst
    have sound := (verifiedIff sender here p).mp accepted
    apply Bool.eq_false_of_not_eq_true
    intro passed
    have other := (verifiedIff receiver there q).mp passed
    exact burstSeen burst (sound.cleared.trans other.cleared.symm)

theorem payloadGuardedMet :
    verifyDumpPayload .big false 3 ([0] ++ [2] ++ ([97,9,0] ++ wordBytes 8 (crc64 .little 0 0#64 [0,1,97,9,0]))) = false := by
  have guarded := payloadGuarded .little .big false 0 3
  have accepted := (payloadGuarded .big .little false 3 0).1 [0,1,97]
  refine guarded.2 ([0] ++ [1] ++ ([97,9,0] ++ wordBytes 8 (crc64 .little 0 0#64 [0,1,97,9,0]))) _ ?_ ?_
  · rwa [createDumpPayload,storedBytes,crcspeedFeeds,← crcspeedFeeds .little 0] at accepted
  · exact burstBytes [0] _ rfl (by decide) (by decide)

end dump

section stream

theorem passFeeds (s : Settings) (checks : s.rdbChecksum = true) (next : Nat) (cksum : BitVec 64) (buf : Bytes) :
    rioPass s next cksum buf = feed turned cksum (bits buf) := by
  induction next, cksum, buf using rioPass.induct s with
  | case1 next cksum => rw [rioPass,if_pos rfl]; rfl
  | case2 next cksum buf some len ih =>
    rw [rioPass,if_neg some,ih,updateCksum,if_pos checks,crcspeedFeeds,← feedAppend,← bitsAppend,List.take_append_drop]

theorem streamedFeeds (s : Settings) (checks : s.rdbChecksum = true) (buffers : List (Nat × Bytes)) :
    streamed s buffers = feed turned 0#64 (bits (buffers.flatMap Prod.snd)) := by
  rw [streamed]
  generalize 0#64 = cksum
  induction buffers generalizing cksum with
  | nil => rfl
  | cons buf rest ih => rw [List.foldl_cons,ih,passFeeds s checks,List.flatMap_cons,bitsAppend,feedAppend]

theorem passOff (s : Settings) (off : s.rdbChecksum = false) (next : Nat) (cksum : BitVec 64) (buf : Bytes) :
    rioPass s next cksum buf = cksum := by
  induction next, cksum, buf using rioPass.induct s with
  | case1 next cksum => rw [rioPass,if_pos rfl]
  | case2 next cksum buf some len ih => rw [rioPass,if_neg some,ih,updateCksum,if_neg (Bool.eq_false_iff.mp off)]

theorem streamedOff (s : Settings) (off : s.rdbChecksum = false) (buffers : List (Nat × Bytes)) :
    streamed s buffers = 0#64 := by
  rw [streamed]
  induction buffers with
  | nil => rfl
  | cons buf rest ih => rw [List.foldl_cons,passOff s off,ih]

/-- A loader that checks takes an old file and one without a checksum, and else one that leaves nothing. -/
theorem loadedIff (s : Settings) (checks : s.rdbChecksum = true) (strict : s.skipChecksumValidation = false)
    (head : Nat × Bytes) (reads : List (Nat × Bytes)) {trailer : Bytes} (eight : trailer.length = 8) :
    rdbLoadRio s head reads trailer = true ↔ ∃ rdbver ∈ rdbHeader head.2, rdbver < 5 ∨
      ofBits (bits trailer) = 0#64 ∨ feed turned 0#64 (bits (head.2 ++ reads.flatMap Prod.snd ++ trailer)) = 0#64 := by
  rw [rdbLoadRio]
  cases header : rdbHeader head.2 with
  | none => simp
  | some rdbver =>
    simp only [Option.mem_def,Option.some.injEq,exists_eq_left']
    by_cases recent : rdbver ≥ 5
    · rw [if_pos recent,or_iff_right (by omega)]
      simp only [if_pos (And.intro checks strict),storedRead s.order eight]
      rw [streamedFeeds s checks,List.flatMap_cons]
      generalize head.2 ++ reads.flatMap Prod.snd = data
      rw [bitsAppend,feedAppend,feedCleared turnedTop (by rw [bitsLen,eight])]
      split
      · rename_i zero
        exact ⟨fun _ => .inl zero,fun _ => rfl⟩
      · rename_i some
        rw [decide_eq_true_iff]
        exact ⟨.inr,fun either => either.resolve_left some⟩
    · rw [if_neg recent]
      exact ⟨fun _ => .inl (by omega),fun _ => rfl⟩

theorem zeroBits (l : Bytes) (eight : l.length = 8) : (ofBits (bits l) : BitVec 64) = 0#64 ↔ l = List.replicate 8 0 := by
  rw [← wordBytesIff eight 0#64,show wordBytes 8 0#64 = List.replicate 8 0 by decide]
  exact ⟨Eq.symm,Eq.symm⟩

theorem savedHeader : rdbHeader (textRedis ++ digitsText 4 rdbVersion) = some 9 := by decide

/-- The data of a saved file, up to its end mark. -/
def savedData (body : List (Nat × Bytes)) : Bytes :=
  textRedis ++ digitsText 4 rdbVersion ++ body.flatMap Prod.snd ++ [opcodeEof]

theorem savedBytes (s : Settings) (magicAt : Nat) (body : List (Nat × Bytes)) (eofAt : Nat) :
    rdbSaveRio s magicAt body eofAt = savedData body ++
      wordBytes 8 (if s.rdbChecksum then feed turned 0#64 (bits (savedData body)) else 0#64) := by
  have data : ((magicAt,textRedis ++ digitsText 4 rdbVersion) :: (body ++ [(eofAt,[opcodeEof])])).flatMap Prod.snd =
      savedData body := by
    simp only [List.flatMap_cons,List.flatMap_append,List.flatMap_nil,List.append_nil,savedData,List.append_assoc]
  rw [rdbSaveRio,storedBytes,data]
  cases on : s.rdbChecksum with
  | false => rw [streamedOff s on,if_neg Bool.false_ne_true]
  | true => rw [streamedFeeds s on,data,if_pos rfl]

/-- A saved file is loaded by any server in whatever pieces it was written and is read; one that was
damaged in a row of at most 64 bits and is read to its end is loaded only when it says that it is an
old one, or when its checksum reads zero, as if none had been stored. -/
theorem savedFileGuarded (saver loader : Settings) (magicAt eofAt : Nat) (body : List (Nat × Bytes))
    (head : Nat × Bytes) (reads : List (Nat × Bytes)) (trailer : Bytes) (nine : head.2.length = 9)
    (eight : trailer.length = 8) :
    (rdbSaveRio saver magicAt body eofAt = head.2 ++ reads.flatMap Prod.snd ++ trailer →
      rdbLoadRio loader head reads trailer = true) ∧
    (saver.rdbChecksum = true → loader.rdbChecksum = true → loader.skipChecksumValidation = false →
      Burst (rdbSaveRio saver magicAt body eofAt) (head.2 ++ reads.flatMap Prod.snd ++ trailer) →
      (rdbLoadRio loader head reads trailer = true ↔
        ∃ rdbver ∈ rdbHeader head.2, rdbver < 5 ∨ trailer = List.replicate 8 0)) := by
  have sumLength (x : BitVec 64) := wordBytesLength 8 x
  rw [savedBytes]
  constructor
  · intro file
    obtain ⟨data,sum⟩ := List.append_inj' file (by rw [sumLength,eight])
    have first : head.2 = textRedis ++ digitsText 4 rdbVersion := by
      rw [savedData,List.append_assoc] at data
      exact (List.append_inj_left data.symm (by rw [nine]; decide))
    by_cases checks : loader.rdbChecksum = true ∧ loader.skipChecksumValidation = false
    · rw [loadedIff loader checks.1 checks.2 head reads eight]
      refine ⟨9,by rw [first]; exact savedHeader,.inr ?_⟩
      rw [← data,← sum]
      cases saver.rdbChecksum with
      | false =>
        rw [if_neg Bool.false_ne_true,wordBytesRead]
        exact .inl rfl
      | true =>
        right
        rw [if_pos rfl,bitsAppend,feedAppend,feedCleared turnedTop (by rw [bitsLen,sumLength]),wordBytesRead]
    · rw [rdbLoadRio,first,savedHeader]
      simp only [if_neg checks,ite_self]
  · intro summed checks strict burst
    rw [loadedIff loader checks strict head reads eight,zeroBits trailer eight]
    have differs : feed turned 0#64 (bits (head.2 ++ reads.flatMap Prod.snd ++ trailer)) ≠ 0#64 := by
      intro cleared
      apply burstSeen burst
      rw [cleared,if_pos summed,bitsAppend,feedAppend,feedCleared turnedTop (by rw [bitsLen,sumLength]),wordBytesRead]
    simp only [differs,or_false]

/-- A damaged byte between the ends is seen; one that makes the version an old one is not. -/
theorem savedFileGuardedMet : ∃ sum,
    rdbLoadRio ⟨.big,true,false,2⟩ (1,textRedis ++ [48,48,48,57]) [(3,[250]),(4,[255])] sum = true ∧
    rdbLoadRio ⟨.big,true,false,2⟩ (1,textRedis ++ [48,48,48,57]) [(3,[251]),(4,[255])] sum = false ∧
    rdbLoadRio ⟨.big,true,false,2⟩ (1,textRedis ++ [48,48,48,52]) [(3,[250]),(4,[255])] sum = true := by
  have file := savedBytes ⟨.little,true,false,0⟩ 0 [(9,[250])] 5
  rw [if_pos rfl] at file
  have some : feed turned 0#64 (bits (savedData [(9,[250])])) ≠ 0#64 := by decide +kernel
  generalize feed turned 0#64 (bits (savedData [(9,[250])])) = crc at file some
  have eight := wordBytesLength 8 crc
  have loads (head : Nat × Bytes) (reads : List (Nat × Bytes)) (nine : head.2.length = 9) :=
    savedFileGuarded ⟨.little,true,false,0⟩ ⟨.big,true,false,2⟩ 0 5 [(9,[250])] head reads _ nine eight
  have whole := loads (1,textRedis ++ [48,48,48,57]) [(3,[250]),(4,[255])] rfl
  have damaged := loads (1,textRedis ++ [48,48,48,57]) [(3,[251]),(4,[255])] rfl
  have aged := loads (1,textRedis ++ [48,48,48,52]) [(3,[250]),(4,[255])] rfl
  rw [file] at whole damaged aged
  refine ⟨wordBytes 8 crc,whole.1 rfl,Bool.eq_false_of_not_eq_true fun loaded => some ?_,?_⟩
  · have burst := @burstBytes (textRedis ++ [48,48,48,57]) ([255] ++ wordBytes 8 crc) [250] [251] rfl (by decide)
      (by decide)
    obtain ⟨rdbver,header,old | zero⟩ := (damaged.2 rfl rfl rfl burst).mp loaded
    · obtain rfl := Option.some.inj (savedHeader.symm.trans header)
      contradiction
    · rwa [← zeroBits _ eight,wordBytesRead] at zero
  · have burst := @burstBytes (textRedis ++ [48,48,48]) ([250,255] ++ wordBytes 8 crc) [57] [52] rfl (by decide)
      (by decide)
    exact (aged.2 rfl rfl rfl burst).mpr ⟨4,by decide,.inl (by decide)⟩

end stream

end HpuCache.SavedData
