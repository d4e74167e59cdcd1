import HpuCache.CommandTrip
import HpuCache.WriteCommands

/-! What a flush of the cache does to the contents of a peer. Of the writes cached under
one key only the last is sent, and the keys are sent in the order of the dictionary:
that is the same as all the writes in order just for writes that coalesce. -/
namespace HpuCache.LosslessFlush
open ByteText KeySlot KeyedDict LatestEntry Coalescing CommandCache ServerState GroupCommands ProcessCommand
open SlotTrace CommandTable WriteCommands MemberStep FanOut EventRun

def firstArgument (argv : List Bytes) : Bytes := argv.getD 1 []

theorem bodyKey (op : CacheOps) : firstArgument (body op) = op.key := by
  have inside : 3 < op.argv.length := op.filled
  simp [firstArgument,body,CacheOps.key,List.getElem?_eq_getElem inside]

theorem forwardedInner {cachedOp : Slot → OpDict} {now : Ustime} {words : List Bytes} {op : CacheOps}
    (built : cacheOps now words = some op) (clean : (cachedOp (keyHashSlot op.key)).find op.key = none) :
    magicBranch cachedOp op.argv = .inner (body op) := by
  rw [CommandTrip.magicEntry built,clean]
  rfl

theorem pendingSub (log : List Logged) : ∀ op ∈ pending log, op ∈ cachedOps log := by
  induction log using List.reverseRecOn with
  | nil => simp [pending,pendingFrom]
  | append_singleton log entry ih =>
    intro op member
    rw [cachedAppend]
    rw [pendingAppend] at member
    obtain ⟨members,effect⟩ := entry
    cases effect with
    | cached slot o =>
      rcases List.mem_append.mp member with old | new
      · exact List.mem_append_left _ (ih op old)
      · rw [List.mem_singleton.mp new]
        exact List.mem_append_right _ (by simp [cachedOps])
    | flushed => simp [pendingFrom,pendingStep] at member

/-- A flush does at each other member what the writes accepted since the flush before did
here, if these writes coalesce; for two writes that is needed. -/
theorem flushLossless {nodes : List NodeId} {s : Slot} {start f : Fan} {past : List MemberEvent}
    (started : Started s start) (run : FanRun nodes s start past f) {σ : Type} (exec : List Bytes → σ → σ) :
    (cachedOps f.log).map body = f.writes ∧
    (∀ before members flush after, f.log = before ++ ⟨members,.flushed s flush⟩ :: after →
      Coalesces exec firstArgument ((pending before).map body) →
      ∀ node ∈ members, node ≠ start.cluster.myself →
        (∀ op ∈ sentTo node flush.sends, ∀ cachedOp : Slot → OpDict,
          (cachedOp (keyHashSlot op.key)).find op.key = none → magicBranch cachedOp op.argv = .inner (body op)) ∧
        ∀ contents, runAll exec ((sentTo node flush.sends).map body) contents =
          runAll exec ((pending before).map body) contents) ∧
    ∀ x y, Coalesces exec firstArgument [x,y] ↔
      ∀ ys, (ys.map firstArgument).Nodup → (∀ z, z ∈ ys ↔ Latest firstArgument [x,y] z) →
        ∀ contents, runAll exec ys contents = runAll exec [x,y] contents := by
  have inv := fanRun started run
  refine ⟨inv.cached,fun before members flush after shape good node member other => ?_,pairNeeds⟩
  have exact_ := inv.flushes before members flush after shape
  have latest := exact_.latest node member other
  refine ⟨fun op sent cachedOp clean => ?_,fun contents => ?_⟩
  · have cached : op ∈ cachedOps f.log := by
      rw [shape,cachedAppend]
      exact List.mem_append_left _ (pendingSub before op (latestMem ((latest op).mp sent)))
    obtain ⟨now,words,built⟩ := inv.built op cached
    exact forwardedInner built clean
  · have ran := latestRun (coalescesMap bodyKey good) (exact_.once node) latest contents
    simpa only [runAll,List.foldl_map] using ran

theorem writesCoalesce {xs : List (List Bytes)}
    (apart : ∀ x ∈ xs, ∀ y ∈ xs, firstArgument x ≠ firstArgument y → ∀ key, Touches x key → ¬ Touches y key)
    (last : ∀ front x middle y back, xs = front ++ x :: (middle ++ y :: back) → firstArgument x = firstArgument y →
      (∀ z ∈ back, firstArgument z ≠ firstArgument y) →
      (∃ w, parse y = some w ∧ w.assigns = true) ∧ ∀ key, Touches x key → Touches y key) :
    Coalesces execWrite firstArgument xs := by
  refine footprintCoalesces writeFootprint apart ?_
  intro front x middle y back shape same rest
  obtain ⟨⟨w,parsed,assigns⟩,cover⟩ := last front x middle y back shape same rest
  exact ⟨assignsOverwrite parsed assigns,cover⟩

def writesThenLeave (first second : List Bytes) : List MemberEvent :=
  [.runmode text1s textAvg,.hotgroup .asStored textAdd (keyHashSlot letterK),
    .packet (clusterBroadcastOwnAsHotInstance 1 (keyHashSlot letterK) 1),
    .command (calm (clock 0)) .fresh first,.command (calm (clock 1)) .fresh second,
    .hotgroup .asStored textDel (keyHashSlot letterK)]

theorem assignmentsCoalesce (key first second : Bytes) :
    Coalesces execWrite firstArgument [[textSet,key,first],[textSet,key,second]] := by
  have assigns : ∀ x ∈ [[textSet,key,first],[textSet,key,second]],
      firstArgument x = key ∧ ∃ value, parse x = some (.set key value) := by
    intro x member
    simp only [List.mem_cons,List.not_mem_nil,or_false] at member
    rcases member with rfl | rfl <;> exact ⟨rfl,_,rfl⟩
  refine writesCoalesce ?_ ?_
  · intro x left y right other
    exact absurd ((assigns x left).1.trans (assigns y right).1.symm) other
  · intro front x middle y back shape _ _
    obtain ⟨_,value,parsed⟩ := assigns y (by rw [shape]; simp)
    obtain ⟨_,old,earlier⟩ := assigns x (by rw [shape]; simp)
    refine ⟨⟨_,parsed,rfl⟩,?_⟩
    rintro k ⟨w,own,member⟩
    cases Option.some.inj (earlier.symm.trans own)
    exact ⟨_,parsed,member⟩

/-- The flush at one place of a log: its slot and group, and what the first node was sent. -/
def flushAt (log : List Logged) (i : Nat) : Option (Slot × List NodeId × List (List Bytes)) :=
  match log[i]? with
  | some ⟨members,.flushed slot flush⟩ => some (slot,members,(sentTo 1 flush.sends).map body)
  | _ => none

theorem flushAtSplit {log : List Logged} {i : Nat} {slot : Slot} {members : List NodeId} {bodies : List (List Bytes)}
    (found : flushAt log i = some (slot,members,bodies)) :
    ∃ flush after, log = log.take i ++ ⟨members,.flushed slot flush⟩ :: after ∧
      (sentTo 1 flush.sends).map body = bodies := by
  unfold flushAt at found
  split at found <;> try contradiction
  rename_i members' slot' flush here
  cases Option.some.inj found
  obtain ⟨inside,entry⟩ := List.getElem?_eq_some_iff.mp here
  refine ⟨flush,log.drop (i + 1),?_,rfl⟩
  rw [← entry,List.getElem_cons_drop,List.take_append_drop]

/-- Two assignments of one key: the peer gets the second only, and that is enough. -/
theorem flushLosslessShown : ∃ past f, FanRun knownNodes (keyHashSlot letterK) secondNode past f ∧
    f.writes = [[textSet,letterK,letterA],[textSet,letterK,letterB]] ∧
    ∃ members flush after, f.log = f.log.take 2 ++ ⟨members,.flushed (keyHashSlot letterK) flush⟩ :: after ∧
      (sentTo 1 flush.sends).map body = [[textSet,letterK,letterB]] ∧
      ∀ contents, runAll execWrite ((sentTo 1 flush.sends).map body) contents =
        runAll execWrite ((pending (f.log.take 2)).map body) contents := by
  obtain ⟨f,done⟩ : ∃ f, replay checkedStep secondNode
      (writesThenLeave [textSet,letterK,letterA] [textSet,letterK,letterB]) = some f :=
    Option.isSome_iff_exists.mp (by decide)
  have seen : (replay checkedStep secondNode
      (writesThenLeave [textSet,letterK,letterA] [textSet,letterK,letterB])).all (fun f =>
        decide (f.writes = [[textSet,letterK,letterA],[textSet,letterK,letterB]]) &&
        decide ((pending (f.log.take 2)).map body = [[textSet,letterK,letterA],[textSet,letterK,letterB]]) &&
        decide (flushAt f.log 2 = some (keyHashSlot letterK,[2,1],[[textSet,letterK,letterB]]))) = true := by decide
  simp only [done,Option.all_some,Bool.and_eq_true,decide_eq_true_eq] at seen
  obtain ⟨⟨writes,waiting⟩,found⟩ := seen
  obtain ⟨flush,after,shape,sent⟩ := flushAtSplit found
  have run := replayGuarded (checkPlainSound (keyHashSlot letterK)) done
  have good : Coalesces execWrite firstArgument ((pending (f.log.take 2)).map body) := by
    rw [waiting]
    exact assignmentsCoalesce letterK letterA letterB
  exact ⟨_,f,run,writes,[2,1],flush,after,shape,sent,
    ((flushLossless (secondStarted _) run execWrite).2.1 _ _ _ _ shape good 1 (by decide) (by decide)).2⟩

/-- Two appends of one key: the peer gets the second only. -/
theorem appendLost : ∃ f, replay (fanStep knownNodes (keyHashSlot letterK)) secondNode
      (writesThenLeave [textAppend,letterK,letterA] [textAppend,letterK,letterB]) = some f ∧
    f.writes = [[textAppend,letterK,letterA],[textAppend,letterK,letterB]] ∧
    (sentLog 1 f.log).map body = [[textAppend,letterK,letterB]] ∧
    runAll execWrite ((sentLog 1 f.log).map body) (fun _ => none) letterK = some (.string [98]) ∧
    runAll execWrite f.writes (fun _ => none) letterK = some (.string [97,98]) := by
  obtain ⟨f,done⟩ : ∃ f, replay (fanStep knownNodes (keyHashSlot letterK)) secondNode
      (writesThenLeave [textAppend,letterK,letterA] [textAppend,letterK,letterB]) = some f :=
    Option.isSome_iff_exists.mp (by decide)
  have seen : (replay (fanStep knownNodes (keyHashSlot letterK)) secondNode
      (writesThenLeave [textAppend,letterK,letterA] [textAppend,letterK,letterB])).all (fun f =>
        decide (f.writes = [[textAppend,letterK,letterA],[textAppend,letterK,letterB]]) &&
        decide ((sentLog 1 f.log).map body = [[textAppend,letterK,letterB]])) = true := by decide
  simp only [done,Option.all_some,Bool.and_eq_true,decide_eq_true_eq] at seen
  obtain ⟨writes,sent⟩ := seen
  refine ⟨f,done,writes,sent,?_,?_⟩
  · rw [sent]
    decide
  · rw [writes]
    decide

end HpuCache.LosslessFlush
