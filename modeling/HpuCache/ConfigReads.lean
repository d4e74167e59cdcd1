import HpuCache.ConfigLoad
import HpuCache.ConfigText

/-! Every word of a line is read back as what it was written from: the address, the flags, the
master, the ranges and the markers. Pointers differ from one server to the next, so the two
states are compared by the names that the pointers stand for. -/
namespace HpuCache.ConfigReads
open BitArray ByteText FaultRun KeyedDict KeySlot NodeTable SlotTable TextLines ConfigSave ConfigText ConfigLoad

/-- Both pointers are absent, or they stand for nodes of one name. -/
inductive SameName (s t : ClusterState) : Option NodePtr → Option NodePtr → Prop
  | absent : SameName s t none none
  | named {p q n m} (left : s.heap p = some n) (right : t.heap q = some m) (same : m.name = n.name) :
    SameName s t (some p) (some q)

theorem SameName.heap {s t u : ClusterState} {o r : Option NodePtr} (same : SameName s t o r) (heap : u.heap = t.heap) :
    SameName s u o r := by
  cases same with
  | absent => exact .absent
  | named left right name => exact .named left (heap ▸ right) name

def shownFlags (f : NodeFlags) : NodeFlags := { f with meet := false, migrateTo := false }

/-- A record without its place in the slot table, its slaves and the flags that follow from them. -/
def bare (n : ClusterNode) : ClusterNode := { unbound n with slaves := [] }

theorem bareOfUnbound {n m : ClusterNode} (same : unbound m = unbound n) : bare m = bare n := by rw [bare,same,bare]

theorem ofBare {α : Type} {n m : ClusterNode} (same : bare m = bare n) (field : ClusterNode → α) :
    field (bare m) = field (bare n) := by rw [same]

/-- The record `m` of the state `t` says what the record `n` of `s` said. -/
structure Matches (s t : ClusterState) (n m : ClusterNode) : Prop where
  name : m.name = n.name
  ip : m.ip = n.ip
  port : m.port = n.port
  cport : m.cport = n.cport
  flags : shownFlags m.flags = shownFlags n.flags
  master : SameName s t n.slaveof m.slaveof
  epoch : m.configEpoch = epochOf s n

structure Formed (ld : Loading) : Prop where
  table : Agreed ld.cluster
  live : ∀ e ∈ ld.cluster.nodes.entries, ∃ n, ld.cluster.heap e.node = some n ∧ n.name = e.name
  listed : ∀ {p n}, ld.cluster.heap p = some n → ⟨n.name,p⟩ ∈ ld.cluster.nodes.entries
  unused : ∀ {p}, ld.fresh ≤ p → ld.cluster.heap p = none

theorem formedEmpty (noRedirection allowReplicaMigration : Bool) :
    Formed ⟨emptyState noRedirection allowReplicaMigration,none,0⟩ :=
  ⟨agreedEmpty (fun _ => rfl) fun found => by contradiction,fun _ inside => absurd inside List.not_mem_nil,
    fun found => by contradiction,fun _ => rfl⟩

theorem Formed.apart {ld : Loading} (formed : Formed ld) {p q : NodePtr} {n m : ClusterNode}
    (left : ld.cluster.heap p = some n) (right : ld.cluster.heap q = some m) (same : m.name = n.name) : q = p :=
  congrArg TableEntry.node (Dict.entryUnique _ (formed.listed right) (formed.listed left) same)

/-- No record is lost or renamed, those that are not touched say what they said, and a new
one has one of the good names and is blank. -/
structure Extends (good : NodeName → Prop) (touched : NodePtr → Prop) (ld next : Loading) : Prop where
  formed : Formed next
  kept : ∀ {q m}, ld.cluster.heap q = some m →
    ∃ k, next.cluster.heap q = some k ∧ k.name = m.name ∧ (¬ touched q → bare k = bare m)
  born : ∀ {q k}, next.cluster.heap q = some k → ld.cluster.heap q = none →
    good k.name ∧ bare k = createClusterNode k.name .none

section
variable {good : NodeName → Prop} {touched : NodePtr → Prop} {ld next last : Loading}

theorem Extends.refl (formed : Formed ld) : Extends good touched ld ld :=
  ⟨formed,fun here => ⟨_,here,rfl,fun _ => rfl⟩,fun here gone => by rw [here] at gone; contradiction⟩

theorem Extends.trans (live : ∀ q, touched q → (ld.cluster.heap q).isSome) (first : Extends good touched ld next)
    (second : Extends good touched next last) : Extends good touched ld last := by
  refine ⟨second.formed,fun {q m} here => ?_,fun {q k} here gone => ?_⟩
  · obtain ⟨k,there,name,same⟩ := first.kept here
    obtain ⟨l,final,later,still⟩ := second.kept there
    exact ⟨l,final,later.trans name,fun other => (still other).trans (same other)⟩
  · cases there : next.cluster.heap q with
    | none => exact second.born here there
    | some l =>
      obtain ⟨allowed,blank⟩ := first.born there gone
      obtain ⟨m,final,name,still⟩ := second.kept there
      obtain rfl := Option.some.inj (final.symm.trans here)
      have other : ¬ touched q := fun mine => by
        have alive := live q mine
        rw [gone] at alive
        contradiction
      rw [still other,blank,name]
      exact ⟨allowed,rfl⟩

theorem Extends.weaken (step : Extends good (fun _ => False) ld next) : Extends good touched ld next :=
  ⟨step.formed,fun here => by
    obtain ⟨k,there,name,same⟩ := step.kept here
    exact ⟨k,there,name,fun _ => same id⟩,step.born⟩

theorem Extends.sameName {s : ClusterState} (step : Extends good touched ld next) {o r : Option NodePtr}
    (same : SameName s ld.cluster o r) : SameName s next.cluster o r := by
  cases same with
  | absent => exact .absent
  | named left right name =>
    obtain ⟨k,there,still,_⟩ := step.kept right
    exact .named left there (still.trans name)

/-- The epochs, which no line of a node changes. -/
def epochs (ld : Loading) : Nat × Nat := (ld.cluster.currentEpoch,ld.cluster.lastVoteEpoch)

structure Quiet (ld next : Loading) : Prop where
  slots : next.cluster.slots = ld.cluster.slots
  migrating : next.cluster.migratingSlotsTo = ld.cluster.migratingSlotsTo
  importing : next.cluster.importingSlotsFrom = ld.cluster.importingSlotsFrom
  epochs : epochs next = epochs ld
  myself : next.myself = ld.myself

theorem Quiet.refl (ld : Loading) : Quiet ld ld := ⟨rfl,rfl,rfl,rfl,rfl⟩

theorem Quiet.trans (first : Quiet ld next) (second : Quiet next last) : Quiet ld last :=
  ⟨second.slots.trans first.slots,second.migrating.trans first.migrating,second.importing.trans first.importing,
    second.epochs.trans first.epochs,second.myself.trans first.myself⟩

theorem storeExtends (formed : Formed ld) {p : NodePtr} {m k : ClusterNode} (here : ld.cluster.heap p = some m)
    (name : k.name = m.name) (slots : k.slots = m.slots) (numslots : k.numslots = m.numslots)
    (same : ¬ touched p → bare k = bare m) : Extends good touched ld (ld.put p k) := by
  have formedNext : Formed (ld.put p k) := by
    refine ⟨agreedRecord formed.table here slots numslots,fun e inside => ?_,fun {q l} there => ?_,fun {q} high => ?_⟩
    · obtain ⟨n,found,own⟩ := formed.live e inside
      by_cases mine : e.node = p
      · refine ⟨k,by simp [mine],?_⟩
        rw [mine,here] at found
        rw [name,Option.some.inj found,own]
      · exact ⟨n,by simp [Function.update_of_ne mine,found],own⟩
    · by_cases mine : q = p
      · subst mine
        simp only [putHeap,Function.update_self,Option.some.injEq] at there
        rw [← there,name]
        exact formed.listed here
      · simp only [putHeap,Function.update_of_ne mine] at there
        exact formed.listed there
    · have gone := formed.unused high
      have other : q ≠ p := fun mine => by rw [mine,here] at gone; contradiction
      simpa only [putHeap,Function.update_of_ne other] using gone
  refine ⟨formedNext,fun {q l} there => ?_,fun {q l} there gone => ?_⟩
  · by_cases mine : q = p
    · subst mine
      obtain rfl := Option.some.inj (here.symm.trans there)
      exact ⟨k,by simp,name,same⟩
    · exact ⟨l,by simp [Function.update_of_ne mine,there],rfl,fun _ => rfl⟩
  · have other : q ≠ p := fun mine => by rw [mine,here] at gone; contradiction
    simp only [putHeap,Function.update_of_ne other] at there
    rw [gone] at there
    contradiction

theorem lookupFound (formed : Formed ld) {p : NodePtr} {name : NodeName}
    (found : clusterLookupNode ld.cluster name = some p) : ∃ m, ld.cluster.heap p = some m ∧ m.name = name := by
  simp only [clusterLookupNode,Option.map_eq_some_iff] at found
  obtain ⟨e,entry,rfl⟩ := found
  obtain ⟨inside,rfl⟩ := Dict.findMem entry
  exact formed.live e inside

theorem lookupNone {name : NodeName} (absent : clusterLookupNode ld.cluster name = none) :
    ld.cluster.nodes.has name = false := by
  rw [clusterLookupNode,Option.map_eq_none_iff,Dict.findNone] at absent
  rw [Bool.eq_false_iff,ne_eq,Dict.hasIff]
  rintro ⟨e,inside,same⟩
  exact absent e inside same

/-- The node of a good name, found or made. -/
theorem nodeOfSpec (formed : Formed ld) {name : NodeName} (long : name.length = 40) (allowed : good name)
    (tail : Bytes) : ∃ next p m, nodeOf ld (name ++ tail) = .ok (next,p) ∧ next.cluster.heap p = some m ∧
      m.name = name ∧ Extends good (fun _ => False) ld next ∧ Quiet ld next := by
  have enough : ¬ (name ++ tail).length < 40 := by simp [long]
  have read : (name ++ tail).take 40 = name := by rw [← long,List.take_left]
  rw [nodeOf,if_neg enough,read]
  cases looked : clusterLookupNode ld.cluster name with
  | some p =>
    obtain ⟨m,here,same⟩ := lookupFound formed looked
    exact ⟨ld,p,m,rfl,here,same,.refl formed,.refl ld⟩
  | none =>
    have free := formed.unused (Nat.le_refl ld.fresh)
    have added : ld.cluster.nodes.add ⟨name,ld.fresh⟩ = some (ld.cluster.nodes.replace ⟨name,ld.fresh⟩) := by
      rw [Dict.add,if_neg (by simp [lookupNone looked])]
    have made : createNode ld.cluster ld.fresh (createClusterNode name .none) =
        .ok { ld.cluster.store ld.fresh (createClusterNode name .none) with
          nodes := ld.cluster.nodes.replace ⟨name,ld.fresh⟩ } := by
      simp [createNode,free,clusterAddNode,ClusterState.deref,bind,Except.bind,ClusterState.store,createClusterNode,added]
    have more := agreedNew (n := createClusterNode name .none) formed.table free rfl rfl
    have other {q : NodePtr} {k : ClusterNode} (here : ld.cluster.heap q = some k) : q ≠ ld.fresh := fun same => by
      rw [same,free] at here
      contradiction
    rw [made]
    refine ⟨_,ld.fresh,createClusterNode name .none,rfl,by simp,rfl,⟨⟨⟨more.agree,more.counted,more.owned⟩,?_,?_,?_⟩,?_,?_⟩,
      rfl,rfl,rfl,rfl,rfl⟩
    · intro e inside
      rcases Dict.memReplace.mp inside with rfl | ⟨member,_⟩
      · exact ⟨createClusterNode name .none,by simp,rfl⟩
      · obtain ⟨n,found,own⟩ := formed.live e member
        exact ⟨n,by simp [Function.update_of_ne (other found),found],own⟩
    · intro q k here
      refine Dict.memReplace.mpr ?_
      by_cases same : q = ld.fresh
      · subst same
        simp only [storeHeap,Function.update_self,Option.some.injEq] at here
        exact .inl (by rw [← here]; rfl)
      · simp only [storeHeap,Function.update_of_ne same] at here
        have member := formed.listed here
        refine .inr ⟨member,fun clash => ?_⟩
        have absent := lookupNone looked
        rw [Bool.eq_false_iff,ne_eq,Dict.hasIff] at absent
        exact absent ⟨_,member,clash⟩
    · intro q high
      have past : q ≠ ld.fresh := Nat.ne_of_gt high
      simp only [storeHeap,Function.update_of_ne past]
      exact formed.unused (Nat.le_of_succ_le high)
    · intro q k here
      exact ⟨k,by simp [Function.update_of_ne (other here),here],rfl,fun _ => rfl⟩
    · intro q k here gone
      by_cases same : q = ld.fresh
      · subst same
        simp only [storeHeap,Function.update_self,Option.some.injEq] at here
        rw [← here]
        exact ⟨allowed,rfl⟩
      · simp only [storeHeap,Function.update_of_ne same] at here
        rw [gone] at here
        contradiction

theorem modifyAt {p : NodePtr} {m : ClusterNode} (here : ld.cluster.heap p = some m)
    (change : ClusterNode → ClusterNode) :
    ld.modify p change = .ok (ld.put p (change m)) := by
  simp [Loading.put,Loading.modify,ClusterState.modify,ClusterState.deref,here,lift,bind,Except.bind]

end

theorem portByte {port : Nat} {c : UInt8} (inside : c ∈ portText port) : c ≠ 58 ∧ c ≠ 64 := by
  rcases signedByte inside with rfl | number
  · decide
  · simp only [isDigit,Bool.and_eq_true,decide_eq_true_eq,UInt8.le_iff_toNat_le] at number
    have high : c.toNat ≤ 57 := number.2
    exact ⟨fun same => absurd (same ▸ high) (by decide),fun same => absurd (same ▸ high) (by decide)⟩

theorem portRead {port : Nat} (small : port < 2 ^ 32) : portOf (atoi (portText port)) = port := by
  have low : -2 ^ 31 ≤ Int.bmod port (2 ^ 32) := Int.le_bmod (by decide)
  have high : Int.bmod port (2 ^ 32) < 2 ^ 31 := Int.bmod_lt (by decide)
  have whole : Int.bmod port (2 ^ 32) % 2 ^ 32 = port := by
    have rest := Int.bmod_emod (x := port) (m := 2 ^ 32)
    omega
  rw [portText,portOf,atoiSigned low high,whole]
  rfl

theorem addressRead {n : ClusterNode} (plain : Plain n.ip) (fits : n.ip.length < 46) (port : n.port < 2 ^ 32)
    (cport : n.cport < 2 ^ 32) : readAddress (addressWord n) = .ok (n.ip,n.port,n.cport) := by
  have ports : portText n.port ++ 64 :: portText n.cport ∈
      {s : Bytes | ∀ c ∈ s, c ≠ 58 ∧ c ≠ 0} := by
    intro c inside
    rcases List.mem_append.mp inside with front | back
    · exact ⟨(portByte front).1,(plainSigned _).zeroFree c front⟩
    · rcases List.mem_cons.mp back with rfl | back
      · decide
      · exact ⟨(portByte back).1,(plainSigned _).zeroFree c back⟩
  have free : ZeroFree (n.ip ++ 58 :: (portText n.port ++ 64 :: portText n.cport)) := by
    intro c inside
    rcases List.mem_append.mp inside with front | back
    · exact plain.zeroFree c front
    · rcases List.mem_cons.mp back with rfl | back
      · decide
      · exact (ports c back).2
  have freePorts : ZeroFree (portText n.port ++ 64 :: portText n.cport) := fun c inside => (ports c inside).2
  have shape : addressWord n = n.ip ++ 58 :: (portText n.port ++ 64 :: portText n.cport) := by
    rw [addressWord,cstrZeroFree plain.zeroFree,List.append_assoc,List.cons_append]
  have last : strrchr (addressWord n) 58 = some (n.ip,portText n.port ++ 64 :: portText n.cport) := by
    rw [strrchr,shape,cstrZeroFree free,cutLastAt fun inside => (ports 58 inside).1 rfl]
  have first : strchr (portText n.port ++ 64 :: portText n.cport) 64 = some (portText n.port,portText n.cport) := by
    rw [strchr,cstrZeroFree freePorts,cutFirstAt fun inside => (portByte inside).2 rfl]
  simp only [readAddress,last,first,if_neg (Nat.not_le.mpr fits),portRead port,portRead cport]

section
variable {good : NodeName → Prop} {ld : Loading} {p : NodePtr} {m : ClusterNode}

/-- The words of the flags, or the word for none. -/
def flagWords (f : NodeFlags) : List Bytes :=
  let words := (redisNodeFlagsTable.filter fun e => e.1 f).map Prod.snd
  if words = [] then [textNoflags] else words

theorem flagWordsText (f : NodeFlags) :
    representClusterNodeFlags f = ((flagWords f).flatMap fun word => word ++ [44]).dropLast := by
  have words : (redisNodeFlagsTable.flatMap fun e => if e.1 f then e.2 ++ [44] else []) =
      ((redisNodeFlagsTable.filter fun e => e.1 f).map Prod.snd).flatMap fun word => word ++ [44] := by
    induction redisNodeFlagsTable with
    | nil => rfl
    | cons e rest ih =>
      rw [List.flatMap_cons,ih]
      cases on : e.1 f <;> simp [on]
  rw [representClusterNodeFlags,words,flagWords]
  by_cases none : (redisNodeFlagsTable.filter fun e => e.1 f).map Prod.snd = []
  · rw [if_pos none,if_pos (by rw [none]; rfl)]
    rfl
  · obtain ⟨word,rest,some⟩ := List.exists_cons_of_ne_nil none
    rw [if_neg none,if_neg (by rw [some]; simp)]

theorem flagWordsOf {f : NodeFlags} {word : Bytes} (inside : word ∈ flagWords f) :
    word = textNoflags ∨ word ∈ redisNodeFlagsTable.map Prod.snd := by
  rw [flagWords] at inside
  split at inside
  · exact .inl (List.mem_singleton.mp inside)
  · obtain ⟨e,member,rfl⟩ := List.mem_map.mp inside
    exact .inr (List.mem_map_of_mem (List.mem_filter.mp member).1)

theorem flagWordPlain : ∀ word ∈ textNoflags :: redisNodeFlagsTable.map Prod.snd,
    Plain word ∧ word ≠ [] ∧ 44 ∉ word ∧ word.length ≤ 10 := by decide

theorem flagWordsPlain {f : NodeFlags} {word : Bytes} (inside : word ∈ flagWords f) :
    Plain word ∧ word ≠ [] ∧ 44 ∉ word ∧ word.length ≤ 10 :=
  flagWordPlain word (List.mem_cons.mpr (flagWordsOf inside))

theorem flagWordsFilled (f : NodeFlags) : flagWords f ≠ [] := by
  rw [flagWords]
  split
  · simp
  · assumption

theorem flagsPlain (f : NodeFlags) : Plain (representClusterNodeFlags f) := by
  intro c inside
  rw [flagWordsText] at inside
  obtain ⟨word,member,here⟩ := List.mem_flatMap.mp (List.mem_of_mem_dropLast inside)
  rcases List.mem_append.mp here with front | comma
  · exact (flagWordsPlain member).1 c front
  · rw [List.mem_singleton.mp comma]
    decide

theorem flagsSplit (f : NodeFlags) : (cstr (representClusterNodeFlags f)).splitOn 44 = flagWords f := by
  rw [cstrZeroFree (flagsPlain f).zeroFree,flagWordsText,
    splitCommas (flagWordsFilled f) fun word inside => (flagWordsPlain inside).2.2.1]

/-- The flags that have a word, added to those that are there. -/
def joinFlags (f g : NodeFlags) : NodeFlags :=
  { g with
    myself := g.myself || f.myself, master := g.master || f.master, slave := g.slave || f.slave,
    pfail := g.pfail || f.pfail, fail := g.fail || f.fail, handshake := g.handshake || f.handshake,
    noaddr := g.noaddr || f.noaddr, nofailover := g.nofailover || f.nofailover }

def setFlag (g : NodeFlags) (word : Bytes) : NodeFlags := ((flagOf word).getD id) g

theorem readFlagOther {word : Bytes} {set : NodeFlags → NodeFlags} (here : ld.cluster.heap p = some m)
    (other : strcasecmpEqual word textMyself = false) (flag : flagOf word = some set) :
    readFlag p ld word = .ok (ld.put p { m with flags := set m.flags }) := by
  rw [readFlag,if_neg (by simp [other]),valueBind,flag]
  exact modifyAt here _

theorem readFlagMyself (here : ld.cluster.heap p = some m) (none : ld.myself = none) :
    readFlag p ld textMyself =
      .ok { ld.put p { m with flags := { m.flags with myself := true } } with myself := some p } := by
  have own : strcasecmpEqual textMyself textMyself = true := by decide
  rw [readFlag,if_pos own,if_neg (by simp [none]),valueBind]
  exact @modifyAt { ld with myself := some p } p m here _

theorem putSame (here : ld.cluster.heap p = some m) : ld.put p m = ld := by
  rw [Loading.put,ClusterState.store,← here,Function.update_eq_self]

theorem readFlagsOther {words : List Bytes} (here : ld.cluster.heap p = some m)
    (others : ∀ word ∈ words, strcasecmpEqual word textMyself = false ∧ (flagOf word).isSome) :
    words.foldlM (readFlag p) ld = .ok (ld.put p { m with flags := words.foldl setFlag m.flags }) := by
  induction words generalizing ld m with
  | nil =>
    rw [List.foldl_nil,putSame here]
    rfl
  | cons word rest ih =>
    obtain ⟨other,known⟩ := others word List.mem_cons_self
    obtain ⟨set,flag⟩ := Option.isSome_iff_exists.mp known
    have next : (ld.put p { m with flags := set m.flags }).cluster.heap p =
        some { m with flags := set m.flags } := by simp
    rw [List.foldlM_cons,readFlagOther here other flag,valueBind,
      ih next fun word inside => others word (List.mem_cons_of_mem _ inside),putTwice]
    simp only [List.foldl_cons,setFlag,flag,Option.getD_some]

def otherWords (f : NodeFlags) : List Bytes := (redisNodeFlagsTable.tail.filter fun e => e.1 f).map Prod.snd

theorem tableOther : ∀ word ∈ textNoflags :: redisNodeFlagsTable.tail.map Prod.snd,
    strcasecmpEqual word textMyself = false ∧ (flagOf word).isSome = true := by decide

theorem otherWordsOther {f : NodeFlags} {word : Bytes} (inside : word ∈ otherWords f) :
    strcasecmpEqual word textMyself = false ∧ (flagOf word).isSome = true := by
  obtain ⟨e,member,rfl⟩ := List.mem_map.mp inside
  exact tableOther _ (List.mem_cons_of_mem _ (List.mem_map_of_mem (List.mem_filter.mp member).1))

theorem flagWhen (set : Bool → NodeFlags) (old b : Bool) {g : NodeFlags} (same : g = set old) :
    (if b = true then set true else g) = set (old || b) := by
  cases b with
  | true => rw [if_pos rfl,Bool.or_true]
  | false => rw [if_neg Bool.false_ne_true,same,Bool.or_false]

theorem otherWordsSet (f g : NodeFlags) :
    (otherWords f).foldl setFlag g = { joinFlags f g with myself := g.myself } := by
  have master (b : Bool) (g) : (if b = true then setFlag g textMaster else g) = { g with master := g.master || b } :=
    flagWhen (fun on => { g with master := on }) _ b rfl
  have slave (b : Bool) (g) : (if b = true then setFlag g textSlave else g) = { g with slave := g.slave || b } :=
    flagWhen (fun on => { g with slave := on }) _ b rfl
  have pfail (b : Bool) (g) : (if b = true then setFlag g textPfail else g) = { g with pfail := g.pfail || b } :=
    flagWhen (fun on => { g with pfail := on }) _ b rfl
  have fail (b : Bool) (g) : (if b = true then setFlag g textFail else g) = { g with fail := g.fail || b } :=
    flagWhen (fun on => { g with fail := on }) _ b rfl
  have handshake (b : Bool) (g) : (if b = true then setFlag g textHandshake else g) =
      { g with handshake := g.handshake || b } := flagWhen (fun on => { g with handshake := on }) _ b rfl
  have noaddr (b : Bool) (g) : (if b = true then setFlag g textNoaddr else g) = { g with noaddr := g.noaddr || b } :=
    flagWhen (fun on => { g with noaddr := on }) _ b rfl
  have nofailover (b : Bool) (g) : (if b = true then setFlag g textNofailover else g) =
      { g with nofailover := g.nofailover || b } := flagWhen (fun on => { g with nofailover := on }) _ b rfl
  rw [otherWords,List.foldl_map,List.foldl_filter]
  simp only [redisNodeFlagsTable,List.tail_cons,List.foldl_cons,List.foldl_nil,master,slave,pfail,fail,handshake,noaddr,
    nofailover]
  rfl

theorem flagWordsShape (f : NodeFlags) : flagWords f =
    if f.myself = true then textMyself :: otherWords f
    else if otherWords f = [] then [textNoflags] else otherWords f := by
  have words : (redisNodeFlagsTable.filter fun e => e.1 f).map Prod.snd =
      (if f.myself = true then [textMyself] else []) ++ otherWords f := by
    have table : redisNodeFlagsTable = (NodeFlags.myself,textMyself) :: redisNodeFlagsTable.tail := rfl
    rw [table,List.filter_cons]
    split <;> rfl
  rw [flagWords,words]
  cases own : f.myself <;> simp

/-- The words of the flags set the flags; the word of the server itself makes the node its own. -/
theorem flagsRead (here : ld.cluster.heap p = some m) (f : NodeFlags) (none : f.myself = true → ld.myself = none) :
    (flagWords f).foldlM (readFlag p) ld = .ok { ld.put p { m with flags := joinFlags f m.flags } with
      myself := if f.myself = true then some p else ld.myself } := by
  rw [flagWordsShape]
  cases own : f.myself with
  | true =>
    have next : ({ ld.put p { m with flags := { m.flags with myself := true } } with myself := some p } :
        Loading).cluster.heap p = some { m with flags := { m.flags with myself := true } } := by simp
    rw [if_pos rfl,if_pos rfl,List.foldlM_cons,readFlagMyself here (none own),valueBind,
      readFlagsOther next fun word inside => otherWordsOther inside,otherWordsSet]
    simp only [Loading.put,storeTwice,joinFlags,own,Bool.or_true]
  | false =>
    have off : ¬ false = true := by decide
    have same : ∀ g : NodeFlags, { joinFlags f g with myself := g.myself } = joinFlags f g := fun g => by
      simp only [joinFlags,own,Bool.or_false]
    rw [if_neg off,if_neg off]
    split
    · rename_i empty
      have idle := otherWordsSet f m.flags
      rw [empty,List.foldl_nil,same] at idle
      rw [List.foldlM_cons,readFlagOther here (by decide) rfl,valueBind,List.foldlM_nil,← idle]
      rfl
    · rw [readFlagsOther here fun word inside => otherWordsOther inside,otherWordsSet,same]
      rfl

theorem addSlaveExtends (formed : Formed ld) {r : NodePtr} {l : ClusterNode} (here : ld.cluster.heap r = some l)
    (slave : NodePtr) : ∃ next : Loading, lift (clusterNodeAddSlave ld.cluster r slave) = .ok next.cluster ∧
      next = { ld with cluster := next.cluster } ∧ Extends good (fun _ => False) ld next ∧ Quiet ld next := by
  simp only [clusterNodeAddSlave,ClusterState.deref,here,valueBind]
  split
  · exact ⟨ld,rfl,rfl,.refl formed,.refl ld⟩
  · exact ⟨ld.put r _,rfl,rfl,storeExtends formed here rfl rfl rfl fun _ => rfl,rfl,rfl,rfl,rfl,rfl⟩

/-- A dash stands for no master, and any other word for the master of that name. -/
theorem masterRead {s : ClusterState} {n : ClusterNode} (formed : Formed ld) (here : ld.cluster.heap p = some m)
    (masters : ∀ {q}, n.slaveof = some q → ∃ k, s.heap q = some k ∧ k.name.length = 40 ∧ k.name.head? ≠ some 45 ∧
      good k.name) (free : m.slaveof = none) :
    ∃ next k, readMaster p ld (masterWord s n) = .ok next ∧ next.cluster.heap p = some k ∧
      Extends good (· = p) ld next ∧ Quiet ld next ∧ bare k = { bare m with slaveof := k.slaveof } ∧
      SameName s next.cluster n.slaveof k.slaveof := by
  cases master : n.slaveof with
  | none =>
    have word : masterWord s n = [45] := by rw [masterWord,master]; rfl
    refine ⟨ld,m,by rw [word]; rfl,here,.refl formed,.refl ld,rfl,?_⟩
    rw [free]
    exact .absent
  | some q =>
    obtain ⟨k,there,long,head,allowed⟩ := masters master
    have word : masterWord s n = k.name := by
      rw [masterWord,master,Option.bind_some,nameAt,there]
      rfl
    obtain ⟨mid,r,l,looked,found,same,grown,quiet⟩ := nodeOfSpec formed long allowed [0]
    obtain ⟨m',still,_,unchanged⟩ := grown.kept here
    have bound : Extends good (· = p) mid (mid.put p { m' with slaveof := some r }) :=
      storeExtends grown.formed still rfl rfl rfl fun other => absurd rfl other
    obtain ⟨l',foundAgain,sameAgain,_⟩ := bound.kept found
    obtain ⟨next,added,shape,later,quietAgain⟩ := @addSlaveExtends good _ bound.formed _ _ foundAgain p
    obtain ⟨x,final,_,kept⟩ := later.kept (q := p) (m := { m' with slaveof := some r }) (by simp)
    have stored : Quiet mid (mid.put p { m' with slaveof := some r }) := ⟨rfl,rfl,rfl,rfl,rfl⟩
    have alive : ∀ q, q = p → (ld.cluster.heap q).isSome := fun q mine => by rw [mine,here]; rfl
    have aliveMid : ∀ q, q = p → (mid.cluster.heap q).isSome := fun q mine => by rw [mine,still]; rfl
    have own : bare x = { bare m with slaveof := some r } := by
      rw [kept id,← unchanged id]
      rfl
    have slaveof : x.slaveof = some r := congrArg ClusterNode.slaveof own
    refine ⟨next,x,?_,final,grown.weaken.trans alive (bound.trans aliveMid later.weaken),
      quiet.trans (stored.trans quietAgain),by rw [own,slaveof],?_⟩
    · have name : ¬ k.name.head? = some 45 := head
      rw [word,readMaster,if_neg name,looked,valueBind]
      change (mid.modify p fun n => { n with slaveof := some r }) >>= _ = _
      rw [modifyAt still,valueBind,added,valueBind,shape]
    · obtain ⟨y,finalMaster,sameLast,_⟩ := later.kept foundAgain
      rw [slaveof]
      exact .named there finalMaster (sameLast.trans (sameAgain.trans same))

theorem assignedExtends (formed : Formed ld) {c : ClusterState} {owner : Slot → Option NodePtr}
    (assigned : Assigned ld.cluster c owner) : Extends good (fun _ => False) ld { ld with cluster := c } := by
  have entries : c.nodes = ld.cluster.nodes := by rw [assigned.rest]
  have name {k l : ClusterNode} (same : unbound l = unbound k) : l.name = k.name := ofUnbound same ClusterNode.name
  have formedNext : Formed { ld with cluster := c } := by
    refine ⟨assigned.table,fun e inside => ?_,fun {q k} here => ?_,fun {q} high => ?_⟩
    · rw [entries] at inside
      obtain ⟨k,here,own⟩ := formed.live e inside
      obtain ⟨l,there,same⟩ := assigned.nodes.node here
      exact ⟨l,there,(name same).trans own⟩
    · obtain ⟨l,there,same⟩ := assigned.nodes.symm.node here
      rw [entries,← name same]
      exact formed.listed there
    · have live := assigned.nodes.live q
      rw [formed.unused high] at live
      simpa using live
  refine ⟨formedNext,fun {q k} here => ?_,fun {q k} here gone => ?_⟩
  · obtain ⟨l,there,same⟩ := assigned.nodes.node here
    exact ⟨l,there,name same,fun _ => bareOfUnbound same⟩
  · have live := assigned.nodes.live q
    rw [gone,here] at live
    contradiction

/-- The owners of the slots that are read are new, and nothing else but the records. -/
structure Owns (ld next : Loading) (p : NodePtr) (mine : Slot → Prop) : Prop where
  taken : ∀ j, mine j → next.cluster.slots j = some ((ld.cluster.slots j).getD p)
  left : ∀ j, ¬ mine j → next.cluster.slots j = ld.cluster.slots j
  migrating : next.cluster.migratingSlotsTo = ld.cluster.migratingSlotsTo
  importing : next.cluster.importingSlotsFrom = ld.cluster.importingSlotsFrom
  epochs : epochs next = epochs ld
  myself : next.myself = ld.myself

theorem Owns.refl (ld : Loading) (p : NodePtr) {mine : Slot → Prop} (none : ∀ j, ¬ mine j) : Owns ld ld p mine :=
  ⟨fun j inside => absurd inside (none j),fun _ _ => rfl,rfl,rfl,rfl,rfl⟩

theorem Owns.trans {next last : Loading} {mine more : Slot → Prop} (first : Owns ld next p mine)
    (second : Owns next last p more) : Owns ld last p fun j => mine j ∨ more j := by
  refine ⟨fun j inside => ?_,fun j outside => ?_,second.migrating.trans first.migrating,
    second.importing.trans first.importing,second.epochs.trans first.epochs,second.myself.trans first.myself⟩
  · by_cases again : more j
    · rw [second.taken j again]
      by_cases early : mine j
      · rw [first.taken j early,Option.getD_some]
      · rw [first.left j early]
    · rw [second.left j again,first.taken j (inside.resolve_right again)]
  · rw [not_or] at outside
    rw [second.left j outside.2,first.left j outside.1]

theorem Owns.imp {next : Loading} {mine more : Slot → Prop} (owns : Owns ld next p mine) (same : ∀ j, mine j ↔ more j) :
    Owns ld next p more :=
  ⟨fun j inside => owns.taken j ((same j).mpr inside),
    fun j outside => owns.left j fun inside => outside ((same j).mp inside),
    owns.migrating,owns.importing,owns.epochs,owns.myself⟩

theorem liftEnds {α : Type} {faults : LoadFault → Prop} {value : α → Prop} {run : Run α}
    (ends : Ends (fun _ => False) value run) : Ends faults value (lift run) := by
  cases run with
  | ok a => exact ends
  | error e => exact ends.elim

theorem addStepEnds {c : ClusterState} (table : Agreed c) (live : (c.heap p).isSome) (slot : Slot) :
    Ends (fun _ => False) (fun d => Assigned c d (Function.update c.slots slot (some ((c.slots slot).getD p))))
      (addStep p c slot) :=
  (liftEnds (addSlotEnds table live slot)).bind fun _ added => added.1

theorem addSlotsSpec (formed : Formed ld) (here : ld.cluster.heap p = some m) (start stop : Slot) :
    ∃ next, addSlots p ld start stop = .ok next ∧ Extends good (fun _ => False) ld next ∧
      Owns ld next p fun j => start ≤ j ∧ j ≤ stop := by
  let inv (done : Slot → Prop) (c : ClusterState) : Prop := ∃ owner, Assigned ld.cluster c owner ∧
    (∀ j, done j → owner j = some ((ld.cluster.slots j).getD p)) ∧ ∀ j, ¬ done j → owner j = ld.cluster.slots j
  have kept (done : Slot → Prop) (c : ClusterState) (j : Slot) (fresh : ¬ done j) (before : inv done c) :
      Ends (fun _ => False) (inv fun k => done k ∨ k = j) (addStep p c j) := by
    obtain ⟨owner,assigned,taken,left⟩ := before
    have live : (c.heap p).isSome := by rw [assigned.nodes.live,here]; rfl
    refine (addStepEnds assigned.table live j).imp fun d added =>
      ⟨_,assigned.trans added,fun k inside => ?_,fun k outside => ?_⟩
    · by_cases same : k = j
      · subst same
        rw [Function.update_self,assigned.slots,left k fresh]
      · rw [Function.update_of_ne same,assigned.slots,taken k (inside.resolve_right same)]
    · rw [not_or] at outside
      rw [Function.update_of_ne outside.2,assigned.slots,left k outside.1]
  have loop : Ends (fun _ => False) (inv fun k => False ∨ k ∈ allSlots.filter fun j => start ≤ j && j ≤ stop)
      ((allSlots.filter fun j => start ≤ j && j ≤ stop).foldlM (addStep p) ld.cluster) :=
    foldEnds (allDistinct.filter _) (fun done c j _ => kept done c j) (fun _ _ => id)
      ⟨_,.refl formed.table,fun _ none => none.elim,fun _ _ => rfl⟩
  obtain ⟨c,ran,owner,assigned,taken,left⟩ := endsTotal.mp loop
  have slots : c.slots = owner := assigned.slots
  refine ⟨{ ld with cluster := c },by rw [addSlots,ran]; rfl,assignedExtends formed assigned,fun j inside => ?_,
    fun j outside => ?_,?_,?_,?_,rfl⟩
  · change c.slots j = _
    rw [slots]
    exact taken j (.inr (by simpa [memAll] using inside))
  · change c.slots j = _
    rw [slots]
    exact left j fun inside => outside (by simpa [memAll] using inside)
  · change c.migratingSlotsTo = _
    rw [assigned.rest]
  · change c.importingSlotsFrom = _
    rw [assigned.rest]
  · change (c.currentEpoch,c.lastVoteEpoch) = _
    rw [assigned.rest]
    rfl

theorem slotNumberOf {v : Nat} (small : v < 16384) : slotNumber (v : Int) = some ⟨v,small⟩ := by
  rw [slotNumber,dif_pos (by omega)]
  rfl

theorem decimalDash (n : Nat) : (45 : UInt8) ∉ decimal n := fun inside => (digitNotZero (decimalDigit inside)).2.2.1 rfl

theorem decimalDashFree (n m : Nat) : ZeroFree (decimal n ++ 45 :: decimal m) := by
  intro c inside
  rcases List.mem_append.mp inside with front | back
  · exact decimalFree n c front
  · rcases List.mem_cons.mp back with rfl | back
    · decide
    · exact decimalFree m c back

theorem rangeRead {range : Nat × Nat} (order : range.1 ≤ range.2) (small : range.2 < 16384) :
    readSlots p ld (rangeText range) = addSlots p ld ⟨range.1,Nat.lt_of_le_of_lt order small⟩ ⟨range.2,small⟩ := by
  obtain ⟨start,stop⟩ := range
  simp only at order small
  have digit : ∀ rest, (decimal start ++ rest).head? ≠ some 91 := by
    intro rest same
    obtain ⟨head,tail,shape⟩ := decimalHead start
    rw [shape,List.cons_append,List.head?_cons,Option.some.injEq] at same
    have number : isDigit head = true := decimalDigit (n := start) (by rw [shape]; exact List.mem_cons_self)
    rw [same] at number
    contradiction
  rw [rangeText]
  split
  · rename_i single
    simp only at single
    subst single
    have none : strchr (decimal start) 45 = Option.none := by
      rw [strchr,cstrZeroFree (decimalFree start),cutFirstNone (decimalDash start)]
    rw [readSlots,if_neg (by simpa using digit []),none]
    simp only [atoiDecimal (show start < 2 ^ 31 by omega),slotNumberOf small]
  · have some : strchr (decimal start ++ 45 :: decimal stop) 45 = Option.some (decimal start,decimal stop) := by
      rw [strchr,cstrZeroFree (decimalDashFree start stop),cutFirstAt (decimalDash start)]
    rw [readSlots,if_neg (digit _),some]
    simp only [atoiDecimal (show start < 2 ^ 31 by omega),atoiDecimal (show stop < 2 ^ 31 by omega),
      slotNumberOf (Nat.lt_of_le_of_lt order small),slotNumberOf small]

theorem memSpan {range : Nat × Nat} {j : Slot} (order : range.1 ≤ range.2) :
    j.val ∈ span range ↔ range.1 ≤ j.val ∧ j.val ≤ range.2 := by
  rw [span,List.mem_range'_1]
  omega

theorem rangesRead (formed : Formed ld) (here : ld.cluster.heap p = some m) {ranges : List (Nat × Nat)}
    (inside : ∀ range ∈ ranges, range.1 ≤ range.2 ∧ range.2 < 16384) :
    ∃ next, (ranges.map rangeText).foldlM (readSlots p) ld = .ok next ∧ Extends good (fun _ => False) ld next ∧
      Owns ld next p fun j => j.val ∈ ranges.flatMap span := by
  induction ranges generalizing ld m with
  | nil => exact ⟨ld,rfl,.refl formed,.refl ld p fun _ => by simp⟩
  | cons range rest ih =>
    obtain ⟨order,small⟩ := inside range List.mem_cons_self
    obtain ⟨mid,added,grown,owns⟩ := @addSlotsSpec good ld p m formed here
      ⟨range.1,Nat.lt_of_le_of_lt order small⟩ ⟨range.2,small⟩
    obtain ⟨k,there,_⟩ := grown.kept here
    obtain ⟨next,ran,later,more⟩ := ih grown.formed there fun other member =>
        inside other (List.mem_cons_of_mem _ member)
    refine ⟨next,?_,grown.trans (fun _ none => none.elim) later,(owns.trans more).imp fun j => ?_⟩
    · rw [List.map_cons,List.foldlM_cons,rangeRead order small,added,valueBind,ran]
    · rw [List.flatMap_cons,List.mem_append,memSpan order]
      rfl

theorem markerRead (formed : Formed ld) (slot : Slot) {direction : UInt8} (arrow : direction ≠ 0) {name : NodeName}
    (long : name.length = 40) (free : ZeroFree name) (allowed : good name) :
    ∃ mid cn k, readSlots p ld (markerText slot direction name) = .ok (mid.mark slot direction cn) ∧
      mid.cluster.heap cn = some k ∧ k.name = name ∧ Extends good (fun _ => False) ld mid ∧ Quiet ld mid := by
  have text : markerText slot direction name = (91 :: decimal slot.val) ++
      45 :: (direction :: 45 :: (name ++ [93])) := by
    rw [markerText,cstrZeroFree free,← long,List.take_length]
    simp
  have whole : ZeroFree (markerText slot direction name) := by
    intro c inside
    rw [text] at inside
    simp only [List.cons_append,List.mem_cons,List.mem_append,List.not_mem_nil,or_false] at inside
    rcases inside with rfl | digits | rfl | rfl | rfl | own | rfl
    · decide
    · exact decimalFree _ c digits
    · decide
    · exact arrow
    · decide
    · exact free c own
    · decide
  have dash : (45 : UInt8) ∉ 91 :: decimal slot.val := by
    rw [List.mem_cons,not_or]
    exact ⟨by decide,decimalDash _⟩
  have found : strchr (markerText slot direction name) 45 =
      some (91 :: decimal slot.val,direction :: 45 :: (name ++ [93])) := by
    rw [strchr,cstrZeroFree whole,text,cutFirstAt dash]
  have number : slotNumber (atoi ((91 :: decimal slot.val).drop 1)) = some slot := by
    have small := slot.isLt
    rw [List.drop_one,List.tail_cons,atoiDecimal (by omega),slotNumberOf small]
  have rest : (markerText slot direction name ++ [0]).drop ((91 :: decimal slot.val).length + 1) =
      direction :: 45 :: (name ++ [93,0]) := by
    rw [text,List.append_assoc,List.drop_append]
    simp
  obtain ⟨mid,cn,k,looked,here,same,grown,quiet⟩ := nodeOfSpec formed long allowed [93,0]
  refine ⟨mid,cn,k,?_,here,same,grown,quiet⟩
  have bracket : (markerText slot direction name).head? = some 91 := by
    rw [text]
    rfl
  rw [readSlots,if_pos bracket,readMarker,found]
  simp only [number,rest]
  change nodeOf ld (name ++ [93,0]) >>= _ = _
  rw [looked,valueBind]
  rfl

theorem markExtends (formed : Formed ld) (slot : Slot) (direction : UInt8) (cn : NodePtr) :
    Extends good (fun _ => False) ld (ld.mark slot direction cn) := by
  rw [Loading.mark]
  split
  · exact ⟨⟨⟨formed.table.agree,formed.table.counted,formed.table.owned⟩,formed.live,formed.listed,formed.unused⟩,
      fun here => ⟨_,here,rfl,fun _ => rfl⟩,fun here gone => absurd (here.symm.trans gone) (by simp)⟩
  · exact ⟨⟨⟨formed.table.agree,formed.table.counted,formed.table.owned⟩,formed.live,formed.listed,formed.unused⟩,
      fun here => ⟨_,here,rfl,fun _ => rfl⟩,fun here gone => absurd (here.symm.trans gone) (by simp)⟩

/-- The markers of some slots stand as they stood in `s`, and the other slots have none. -/
structure Marks (s : ClusterState) (base ld : Loading) (done : Slot → Prop) : Prop where
  slots : ld.cluster.slots = base.cluster.slots
  epochs : epochs ld = epochs base
  myself : ld.myself = base.myself
  migrating : ∀ j, done j → SameName s ld.cluster (s.migratingSlotsTo j) (ld.cluster.migratingSlotsTo j)
  importing : ∀ j, done j → SameName s ld.cluster (s.importingSlotsFrom j) (ld.cluster.importingSlotsFrom j)
  unmarked : ∀ j, ¬ done j → ld.cluster.migratingSlotsTo j = none ∧ ld.cluster.importingSlotsFrom j = none

theorem Marks.mark {s : ClusterState} {base mid : Loading} {done : Slot → Prop} (marks : Marks s base ld done)
    {slot : Slot} (fresh : ¬ done slot) {direction : UInt8} {cn q : NodePtr} {n k : ClusterNode}
    (source : s.heap q = some n) (here : mid.cluster.heap cn = some k) (same : k.name = n.name)
    (grown : Extends good (fun _ => False) ld mid) (quiet : Quiet ld mid)
    (chosen : if direction = 62 then s.migratingSlotsTo slot = some q ∧ s.importingSlotsFrom slot = none
      else s.migratingSlotsTo slot = none ∧ s.importingSlotsFrom slot = some q) :
    Marks s base (mid.mark slot direction cn) fun j => done j ∨ j = slot := by
  obtain ⟨free,also⟩ := marks.unmarked slot fresh
  have mine : SameName s mid.cluster (some q) (some cn) := .named source here same
  by_cases right : direction = 62
  · rw [if_pos right] at chosen
    rw [Loading.mark,if_pos right]
    refine ⟨quiet.slots.trans marks.slots,quiet.epochs.trans marks.epochs,quiet.myself.trans marks.myself,
      fun j inside => ?_,fun j inside => ?_,fun j outside => ?_⟩
    · by_cases now : j = slot
      · subst now
        simp only [chosen.1,Function.update_self]
        exact mine.heap rfl
      · simp only [Function.update_of_ne now,quiet.migrating]
        exact (grown.sameName (marks.migrating j (inside.resolve_right now))).heap rfl
    · by_cases now : j = slot
      · subst now
        simp only [chosen.2,quiet.importing,also]
        exact .absent
      · simp only [quiet.importing]
        exact (grown.sameName (marks.importing j (inside.resolve_right now))).heap rfl
    · rw [not_or] at outside
      simp only [Function.update_of_ne outside.2,quiet.migrating,quiet.importing]
      exact marks.unmarked j outside.1
  · rw [if_neg right] at chosen
    rw [Loading.mark,if_neg right]
    refine ⟨quiet.slots.trans marks.slots,quiet.epochs.trans marks.epochs,quiet.myself.trans marks.myself,
      fun j inside => ?_,fun j inside => ?_,fun j outside => ?_⟩
    · by_cases now : j = slot
      · subst now
        simp only [chosen.1,quiet.migrating,free]
        exact .absent
      · simp only [quiet.migrating]
        exact (grown.sameName (marks.migrating j (inside.resolve_right now))).heap rfl
    · by_cases now : j = slot
      · subst now
        simp only [chosen.2,Function.update_self]
        exact mine.heap rfl
      · simp only [Function.update_of_ne now,quiet.importing]
        exact (grown.sameName (marks.importing j (inside.resolve_right now))).heap rfl
    · rw [not_or] at outside
      simp only [Function.update_of_ne outside.2,quiet.migrating,quiet.importing]
      exact marks.unmarked j outside.1

def Named (s : ClusterState) (good : NodeName → Prop) (j : Slot) : Prop :=
  ∀ q, s.migratingSlotsTo j = some q ∨ s.importingSlotsFrom j = some q →
    ∃ n, s.heap q = some n ∧ n.name.length = 40 ∧ ZeroFree n.name ∧ good n.name

theorem markerStepRead {s : ClusterState} {base : Loading} {done : Slot → Prop} {slot : Slot} (formed : Formed ld)
    (marks : Marks s base ld done) (fresh : ¬ done slot) (named : Named s good slot)
    (apart : s.migratingSlotsTo slot = none ∨ s.importingSlotsFrom slot = none) :
    ∃ next, (markerWord s slot).elim (.ok ld) (readSlots p ld) = .ok next ∧ Extends good (fun _ => False) ld next ∧
        Marks s base next fun j => done j ∨ j = slot := by
  have marked {q : NodePtr} {n : ClusterNode} {direction : UInt8} (arrow : direction ≠ 0) (source : s.heap q = some n)
      (long : n.name.length = 40) (free : ZeroFree n.name) (allowed : good n.name)
      (chosen : if direction = 62 then s.migratingSlotsTo slot = some q ∧ s.importingSlotsFrom slot = none
        else s.migratingSlotsTo slot = none ∧ s.importingSlotsFrom slot = some q) :
      ∃ next, readSlots p ld (markerText slot direction n.name) = .ok next ∧ Extends good (fun _ => False) ld next ∧
        Marks s base next fun j => done j ∨ j = slot := by
    obtain ⟨mid,cn,k,read,here,same,grown,quiet⟩ := markerRead (p := p) formed slot arrow long free allowed
    exact ⟨_,read,grown.trans (fun _ none => none.elim) (markExtends grown.formed slot direction cn),
      marks.mark fresh source here same grown quiet chosen⟩
  cases migrating : s.migratingSlotsTo slot with
  | some q =>
    obtain ⟨n,source,long,free,allowed⟩ := named q (.inl migrating)
    have other : s.importingSlotsFrom slot = none := by simpa [migrating] using apart
    have word : markerWord s slot = some (markerText slot 62 n.name) := by
      simp only [markerWord,migrating,nameAt,source,Option.map_some]
    rw [word]
    exact marked (by decide) source long free allowed (by rw [if_pos rfl]; exact ⟨migrating,other⟩)
  | none =>
    cases importing : s.importingSlotsFrom slot with
    | some q =>
      obtain ⟨n,source,long,free,allowed⟩ := named q (.inr importing)
      have word : markerWord s slot = some (markerText slot 60 n.name) := by
        simp only [markerWord,migrating,importing,nameAt,source,Option.map_some]
      rw [word]
      exact marked (by decide) source long free allowed (by rw [if_neg (by decide)]; exact ⟨migrating,importing⟩)
    | none =>
      have word : markerWord s slot = none := by simp only [markerWord,migrating,importing]
      obtain ⟨free,also⟩ := marks.unmarked slot fresh
      rw [word]
      refine ⟨ld,rfl,.refl formed,marks.slots,marks.epochs,marks.myself,fun j inside => ?_,fun j inside => ?_,
        fun j outside => marks.unmarked j fun early => outside (.inl early)⟩
      · rcases inside with early | rfl
        · exact marks.migrating j early
        · rw [migrating,free]
          exact .absent
      · rcases inside with early | rfl
        · exact marks.importing j early
        · rw [importing,also]
          exact .absent

theorem foldFilterMap {α : Type} (word : α → Option Bytes) (items : List α) (ld : Loading) :
    (items.filterMap word).foldlM (readSlots p) ld =
      items.foldlM (fun t item => (word item).elim (.ok t) (readSlots p t)) ld := by
  induction items generalizing ld with
  | nil => rfl
  | cons item rest ih =>
    rw [List.foldlM_cons]
    cases found : word item with
    | none => rw [List.filterMap_cons_none found,ih,Option.elim_none,valueBind]
    | some text =>
      rw [List.filterMap_cons_some found,List.foldlM_cons,Option.elim_some]
      exact bind_congr fun t => ih t

/-- The markers of the server itself, all slots of them. -/
theorem markersRead {s : ClusterState} (formed : Formed ld)
    (unmarked : ∀ j, ld.cluster.migratingSlotsTo j = none ∧ ld.cluster.importingSlotsFrom j = none)
    (named : ∀ j, Named s good j) (apart : ∀ j, s.migratingSlotsTo j = none ∨ s.importingSlotsFrom j = none) :
    ∃ next, (allSlots.filterMap (markerWord s)).foldlM (readSlots p) ld = .ok next ∧
      Extends good (fun _ => False) ld next ∧ Marks s ld next fun _ => True := by
  let inv (done : Slot → Prop) (t : Loading) : Prop := Extends good (fun _ => False) ld t ∧ Marks s ld t done
  have start : inv (fun _ => False) ld :=
    ⟨.refl formed,rfl,rfl,rfl,fun _ none => none.elim,fun _ none => none.elim,fun j _ => unmarked j⟩
  have loop : Ends (fun _ => False) (inv fun j => False ∨ j ∈ allSlots)
      (allSlots.foldlM (fun t j => (markerWord s j).elim (.ok t) (readSlots p t)) ld) := by
    refine foldEnds allDistinct (fun done t j _ fresh before => endsTotal.mpr ?_) (fun _ _ => id) start
    obtain ⟨grown,marks⟩ := before
    obtain ⟨next,read,more,after⟩ := markerStepRead (p := p) grown.formed marks fresh (named j) (apart j)
    exact ⟨next,read,grown.trans (fun _ none => none.elim) more,after⟩
  obtain ⟨next,ran,grown,marks⟩ := endsTotal.mp loop
  refine ⟨next,?_,grown,?_⟩
  · rw [foldFilterMap,ran]
  · have all : (fun j : Slot => False ∨ j ∈ allSlots) = fun _ => True := by
      funext j
      simp [memAll]
    rw [all] at marks
    exact marks

end

theorem Matches.carried {s t u : ClusterState} {n m k : ClusterNode} (matched : Matches s t n m)
    (name : k.name = m.name)
    (same : bare k = bare m) (kept : ∀ {o r}, SameName s t o r → SameName s u o r) : Matches s u n k := by
  have ip : k.ip = m.ip := ofBare same ClusterNode.ip
  have port : k.port = m.port := ofBare same ClusterNode.port
  have cport : k.cport = m.cport := ofBare same ClusterNode.cport
  have slaveof : k.slaveof = m.slaveof := ofBare same ClusterNode.slaveof
  have epoch : k.configEpoch = m.configEpoch := ofBare same ClusterNode.configEpoch
  have flags : shownFlags k.flags = shownFlags m.flags :=
    ofBare same fun n => shownFlags n.flags
  refine ⟨name.trans matched.name,ip.trans matched.ip,port.trans matched.port,cport.trans matched.cport,
    flags.trans matched.flags,?_,epoch.trans matched.epoch⟩
  rw [slaveof]
  exact kept matched.master

theorem joinedFlags {f g : NodeFlags} (blank : { g with migrateTo := false } = NodeFlags.none) :
    shownFlags (joinFlags f g) = shownFlags f := by
  have master : g.master = false := congrArg NodeFlags.master blank
  have slave : g.slave = false := congrArg NodeFlags.slave blank
  have pfail : g.pfail = false := congrArg NodeFlags.pfail blank
  have fail : g.fail = false := congrArg NodeFlags.fail blank
  have myself : g.myself = false := congrArg NodeFlags.myself blank
  have handshake : g.handshake = false := congrArg NodeFlags.handshake blank
  have noaddr : g.noaddr = false := congrArg NodeFlags.noaddr blank
  have nofailover : g.nofailover = false := congrArg NodeFlags.nofailover blank
  simp only [shownFlags,joinFlags,master,slave,pfail,fail,myself,handshake,noaddr,nofailover,Bool.false_or]

theorem ownExtends {good : NodeName → Prop} {touched : NodePtr → Prop} {ld : Loading} (formed : Formed ld)
    (own : Option NodePtr) : Extends good touched ld { ld with myself := own } :=
  ⟨⟨formed.table,formed.live,formed.listed,formed.unused⟩,fun here => ⟨_,here,rfl,fun _ => rfl⟩,
    fun here gone => absurd (here.symm.trans gone) (by simp)⟩

end HpuCache.ConfigReads
