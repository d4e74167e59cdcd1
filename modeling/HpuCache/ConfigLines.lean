import HpuCache.ConfigReads

/-! The states whose configuration makes the round trip, and the lines that it is written
in: every word is plain, and every line fits the buffer that it is read into. -/
namespace HpuCache.ConfigLines
open BitArray ByteText KeyedDict KeySlot NodeTable SlotTable TextLines ConfigSave ConfigText ConfigLoad ConfigReads

/-- What the round trip is promised for: the slot table and the dictionary in order, the server
itself the only node of its kind, no slot marked both ways, markers and masters outside
handshake, and the epochs below that of the cluster, which fits its width. -/
structure Sound (s : ClusterState) : Prop where
  table : Agreed s
  listed : Listed s
  me : ∀ {p n}, s.heap p = some n → (n.flags.myself = true ↔ p = s.myself)
  apart : ∀ j, s.migratingSlotsTo j = none ∨ s.importingSlotsFrom j = none
  markers : ∀ {j q}, s.migratingSlotsTo j = some q ∨ s.importingSlotsFrom j = some q →
    ∃ n, s.heap q = some n ∧ n.flags.handshake = false
  masters : ∀ {p n q}, s.heap p = some n → n.slaveof = some q → ∃ m, s.heap q = some m ∧ m.flags.handshake = false
  epochs : ∀ {p n}, s.heap p = some n → n.configEpoch ≤ s.currentEpoch
  wide : s.currentEpoch < 2 ^ 64 ∧ s.lastVoteEpoch < 2 ^ 64

/-- Names and addresses that a line can hold: 40 bytes of a name that do not begin with a
dash, at most 45 of an address, no blanks, quotes or zero bytes among them, and ports that
are bits of an `int`. -/
structure Textual (s : ClusterState) : Prop where
  names : ∀ {p n}, s.heap p = some n → n.name.length = 40 ∧ Plain n.name ∧ n.name.head? ≠ some 45
  addresses : ∀ {p n}, s.heap p = some n → Plain n.ip ∧ n.ip.length < 46 ∧ n.port < 2 ^ 32 ∧ n.cport < 2 ^ 32

theorem Sound.mentioned {s : ClusterState} (sound : Sound s) : Mentioned s :=
  ⟨fun marker => (sound.markers marker).imp fun _ both => both.1,
    fun found master => (sound.masters found master).imp fun _ both => both.1⟩

theorem Sound.unique {s : ClusterState} (sound : Sound s) {p q : NodePtr} {n m : ClusterNode} (left : s.heap p = some n)
    (right : s.heap q = some m) (same : m.name = n.name) : q = p :=
  congrArg TableEntry.node (Dict.entryUnique _ (sound.listed.listed right) (sound.listed.listed left) same)

theorem Sound.epochOf {s : ClusterState} (sound : Sound s) {p : NodePtr} {n : ClusterNode} (found : s.heap p = some n) :
    epochOf s n ≤ s.currentEpoch := by
  rw [ConfigText.epochOf]
  split
  · rename_i q master
    obtain ⟨m,there,_⟩ := sound.masters found master
    split
    · rw [there]
      exact sound.epochs there
    · exact sound.epochs found
  · exact sound.epochs found

section
variable {s : ClusterState}

theorem masterCases (sound : Sound s) (textual : Textual s) {p : NodePtr} {n : ClusterNode}
    (found : s.heap p = some n) :
    Plain (masterWord s n) ∧ masterWord s n ≠ [] ∧ (masterWord s n).length ≤ 40 := by
  rw [masterWord]
  cases master : n.slaveof with
  | none =>
    rw [Option.bind_none,Option.getD_none]
    exact ⟨by decide,by decide,by decide⟩
  | some q =>
    obtain ⟨m,there,_⟩ := sound.masters found master
    obtain ⟨long,plain,_⟩ := textual.names there
    rw [Option.bind_some,nameAt,there,Option.map_some,Option.getD_some]
    exact ⟨plain,fun empty => by rw [empty] at long; contradiction,Nat.le_of_eq long⟩

theorem flagsFilled (f : NodeFlags) : representClusterNodeFlags f ≠ [] := by
  intro empty
  have words := flagsSplit f
  rw [empty] at words
  have member : [] ∈ flagWords f := by
    rw [← words]
    exact List.mem_cons_self
  exact (flagWordsPlain member).2.1 rfl

theorem plainAddress (textual : Textual s) {p : NodePtr} {n : ClusterNode} (found : s.heap p = some n) :
    Plain (addressWord n) := by
  obtain ⟨plain,_⟩ := textual.addresses found
  rw [addressWord,cstrZeroFree plain.zeroFree]
  intro c inside
  simp only [List.mem_append,List.mem_cons] at inside
  rcases inside with (own | rfl | port) | rfl | cport
  · exact plain c own
  · decide
  · exact plainSigned _ c port
  · decide
  · exact plainSigned _ c cport

theorem plainRange (range : Nat × Nat) : Plain (rangeText range) ∧ rangeText range ≠ [] := by
  rw [rangeText]
  split
  · exact ⟨plainDecimal _,decimalFilled _⟩
  · refine ⟨fun c inside => ?_,by simp⟩
    rcases List.mem_append.mp inside with front | back
    · exact plainDecimal _ c front
    · rcases List.mem_cons.mp back with rfl | back
      · decide
      · exact plainDecimal _ c back

theorem markerShape (sound : Sound s) (textual : Textual s) {slot : Slot} {word : Bytes}
    (marked : markerWord s slot = some word) :
    ∃ direction name, (direction = 62 ∨ direction = 60) ∧ Plain name ∧ name.length = 40 ∧
      word = markerText slot direction name := by
  have named {q : NodePtr} (marker : s.migratingSlotsTo slot = some q ∨ s.importingSlotsFrom slot = some q) :
      ∃ name, nameAt s q = some name ∧ Plain name ∧ name.length = 40 := by
    obtain ⟨k,there,_⟩ := sound.markers marker
    obtain ⟨long,plain,_⟩ := textual.names there
    exact ⟨k.name,by rw [nameAt,there]; rfl,plain,long⟩
  rw [markerWord] at marked
  split at marked
  · rename_i q _ migrating
    obtain ⟨name,known,plain,long⟩ := named (.inl migrating)
    rw [known] at marked
    exact ⟨62,name,.inl rfl,plain,long,(Option.some.inj marked).symm⟩
  · rename_i q _ importing
    obtain ⟨name,known,plain,long⟩ := named (.inr importing)
    rw [known] at marked
    exact ⟨60,name,.inr rfl,plain,long,(Option.some.inj marked).symm⟩
  · contradiction

theorem plainMarker (slot : Slot) {direction : UInt8} (arrow : direction = 62 ∨ direction = 60) {name : NodeName}
    (plain : Plain name) (long : name.length = 40) :
    Plain (markerText slot direction name) ∧ markerText slot direction name ≠ [] ∧
      (markerText slot direction name).length ≤ 50 := by
  have small := slot.isLt
  have digits : (decimal slot.val).length ≤ 5 := decimalLength (by decide) (by omega)
  rw [markerText,cstrZeroFree plain.zeroFree,← long,List.take_length]
  refine ⟨fun c inside => ?_,by simp,?_⟩
  · simp only [List.cons_append,List.mem_append,List.mem_cons,List.not_mem_nil,or_false] at inside
    rcases inside with rfl | (here | rfl | rfl | rfl | own) | rfl
    · decide
    · exact plainDecimal _ c here
    · decide
    · rcases arrow with rfl | rfl <;> decide
    · decide
    · exact plain c own
    · decide
  · simp only [List.cons_append,List.length_append,List.length_cons,List.length_nil]
    omega

theorem wordsPlain (sound : Sound s) (textual : Textual s) {p : NodePtr} {n : ClusterNode} (found : s.heap p = some n)
    (beat : Beat) (ranges : List (Nat × Nat)) : ∀ word ∈ n.name :: nodeWords s beat ranges n,
      Plain word ∧ word ≠ [] := by
  obtain ⟨long,plain,_⟩ := textual.names found
  obtain ⟨master,filled,_⟩ := masterCases sound textual found
  have own : ∀ word ∈ ownWords s n, Plain word ∧ word ≠ [] := by
    intro word inside
    rw [ownWords] at inside
    split at inside
    · obtain ⟨slot,_,marked⟩ := List.mem_filterMap.mp inside
      obtain ⟨direction,name,arrow,good,forty,rfl⟩ := markerShape sound textual marked
      obtain ⟨ok,nonempty,_⟩ := plainMarker slot arrow good forty
      exact ⟨ok,nonempty⟩
    · contradiction
  have link : Plain (linkWord beat n) ∧ linkWord beat n ≠ [] := by
    rw [linkWord]
    split <;> exact ⟨by decide,by decide⟩
  have slots : ∀ word ∈ ranges.map rangeText, Plain word ∧ word ≠ [] := by
    intro word inside
    obtain ⟨range,_,rfl⟩ := List.mem_map.mp inside
    exact plainRange range
  have first : Plain n.name ∧ n.name ≠ [] := ⟨plain,fun empty => by rw [empty] at long; contradiction⟩
  have address : addressWord n ≠ [] := List.append_ne_nil_of_right_ne_nil _ (List.cons_ne_nil _ _)
  refine List.forall_mem_cons.mpr ⟨first,List.forall_mem_append.mpr ⟨?_,List.forall_mem_append.mpr ⟨slots,own⟩⟩⟩
  refine List.forall_mem_cons.mpr ⟨⟨plainAddress textual found,address⟩,List.forall_mem_cons.mpr ⟨⟨flagsPlain _,flagsFilled _⟩,
    List.forall_mem_cons.mpr ⟨⟨master,filled⟩,List.forall_mem_cons.mpr ⟨⟨plainSigned _,signedFilled _⟩,
    List.forall_mem_cons.mpr ⟨⟨plainSigned _,signedFilled _⟩,List.forall_mem_cons.mpr ⟨⟨plainDecimal _,decimalFilled _⟩,
    List.forall_mem_singleton.mpr link⟩⟩⟩⟩⟩⟩

theorem spreadLength {k : Nat} {words : List Bytes} (short : ∀ word ∈ words, word.length ≤ k) :
    (words.flatMap fun word => 32 :: word).length ≤ words.length * (k + 1) := by
  induction words with
  | nil => simp
  | cons word rest ih =>
    have first := short word List.mem_cons_self
    have later := ih fun other inside => short other (List.mem_cons_of_mem _ inside)
    rw [List.flatMap_cons,List.length_append,List.length_cons,List.length_cons,Nat.succ_mul]
    omega

theorem allCount : allSlots.length = 16384 := by
  unfold allSlots
  exact List.length_finRange

/-- Six bytes for a slot are enough. -/
theorem rangesLength {ranges : List (Nat × Nat)} (inside : ∀ range ∈ ranges, range.1 ≤ range.2 ∧ range.2 < 16384) :
    ((ranges.map rangeText).flatMap fun word => 32 :: word).length ≤ 6 * (ranges.flatMap span).length := by
  induction ranges with
  | nil => exact Nat.le_refl _
  | cons range rest ih =>
    obtain ⟨order,small⟩ := inside range List.mem_cons_self
    have later := ih fun other member => inside other (List.mem_cons_of_mem _ member)
    have start : (decimal range.1).length ≤ 5 := decimalLength (by decide) (by omega)
    have stop : (decimal range.2).length ≤ 5 := decimalLength (by decide) (by omega)
    have width : (span range).length = range.2 + 1 - range.1 := by rw [span,List.length_range']
    have own : (rangeText range).length + 1 ≤ 6 * (range.2 + 1 - range.1) := by
      rw [rangeText]
      split
      · omega
      · rw [List.length_append,List.length_cons]
        omega
    rw [List.map_cons,List.flatMap_cons,List.length_append,List.length_cons,List.flatMap_cons,List.length_append,width]
    omega

theorem flagsLength (f : NodeFlags) : (representClusterNodeFlags f).length ≤ 88 := by
  have many : (flagWords f).length ≤ 8 := by
    have some : ((redisNodeFlagsTable.filter fun e => e.1 f).map Prod.snd).length ≤ 8 := by
      rw [List.length_map]
      exact List.length_filter_le _ redisNodeFlagsTable
    rw [flagWords]
    split
    · decide
    · exact some
  have spread : ∀ words : List Bytes, (∀ word ∈ words, word.length ≤ 10) →
      (words.flatMap fun word => word ++ [44]).length ≤ words.length * 11 := by
    intro words short
    induction words with
    | nil => exact Nat.le_refl _
    | cons word rest ih =>
      have first := short word List.mem_cons_self
      have later := ih fun other inside => short other (List.mem_cons_of_mem _ inside)
      rw [List.flatMap_cons,List.length_append,List.length_append,List.length_singleton,List.length_cons,Nat.succ_mul]
      omega
  have total := spread (flagWords f) fun word inside => (flagWordsPlain inside).2.2.2
  rw [flagWordsText,List.length_dropLast]
  omega

theorem portLength (port : Nat) : (portText port).length ≤ 11 := by
  have low : -2 ^ 31 ≤ Int.bmod port (2 ^ 32) := Int.le_bmod (by decide)
  have high : Int.bmod port (2 ^ 32) < 2 ^ 31 := Int.bmod_lt (by decide)
  exact signedLength (by decide) (by omega)

/-- A line fits the buffer of the reader. -/
theorem lineShort (sound : Sound s) (textual : Textual s) {p : NodePtr} {n : ClusterNode} (found : s.heap p = some n)
    (beat : Beat) {ranges : List (Nat × Nat)} (covers : Covers s p 16384 ranges) :
    (joined n.name (nodeWords s beat ranges n)).length ≤ maxRoom := by
  obtain ⟨long,_⟩ := textual.names found
  obtain ⟨plain,fits,_⟩ := textual.addresses found
  have ownRanges := rangesLength covers.inside
  have slots : (ownedBelow s p 16384).length ≤ 16384 := by
    rw [ownedBelow]
    exact (List.length_filter_le _ _).trans (Nat.le_of_eq List.length_range)
  have markers : ((ownWords s n).flatMap fun word => 32 :: word).length ≤ 16384 * 51 := by
    have short : ∀ word ∈ ownWords s n, word.length ≤ 50 := by
      intro word inside
      rw [ownWords] at inside
      split at inside
      · obtain ⟨slot,_,marked⟩ := List.mem_filterMap.mp inside
        obtain ⟨direction,name,arrow,good,forty,rfl⟩ := markerShape sound textual marked
        exact (plainMarker slot arrow good forty).2.2
      · exact absurd inside List.not_mem_nil
    have many : (ownWords s n).length ≤ 16384 := by
      rw [ownWords]
      split
      · exact (List.length_filterMap_le _ _).trans (Nat.le_of_eq allCount)
      · exact Nat.zero_le _
    exact (spreadLength short).trans (Nat.mul_le_mul_right _ many)
  have address : (addressWord n).length ≤ 69 := by
    have port := portLength n.port
    have cport := portLength n.cport
    rw [addressWord,cstrZeroFree plain.zeroFree,List.length_append,List.length_append,List.length_cons,List.length_cons]
    omega
  have head : ([addressWord n,representClusterNodeFlags n.flags,masterWord s n,signedDecimal beat.pingSent,
      signedDecimal beat.pongReceived,decimal (epochOf s n),linkWord beat n].flatMap fun word => 32 :: word).length ≤
        7 * (88 + 1) := by
    have flags := flagsLength n.flags
    have master := (masterCases sound textual found).2.2
    have ping : (signedDecimal beat.pingSent).length ≤ 20 := signedLength (by decide) (by have := beat.ping; omega)
    have pong : (signedDecimal beat.pongReceived).length ≤ 20 := signedLength (by decide) (by have := beat.pong; omega)
    have epoch : (decimal (epochOf s n)).length ≤ 20 :=
      decimalLength (by decide) (by have := sound.epochOf found; have := sound.wide.1; omega)
    have link : (linkWord beat n).length ≤ 12 := by
      rw [linkWord]
      split <;> decide
    refine spreadLength (List.forall_mem_cons.mpr ⟨by omega,List.forall_mem_cons.mpr ⟨flags,List.forall_mem_cons.mpr
      ⟨by omega,List.forall_mem_cons.mpr ⟨by omega,List.forall_mem_cons.mpr ⟨by omega,List.forall_mem_cons.mpr ⟨by omega,
        List.forall_mem_singleton.mpr (by omega)⟩⟩⟩⟩⟩⟩)
  rw [covers.exact_] at ownRanges
  rw [joined,nodeWords,List.length_append,List.flatMap_append,List.flatMap_append,List.length_append,List.length_append,
    long,maxRoom]
  omega

end

end HpuCache.ConfigLines
