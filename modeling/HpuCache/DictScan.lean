import HpuCache.IncrementalDict

/-! The scan of a dictionary with a cursor that the caller keeps. Between two calls the dictionary
may change in any way, also in the sizes of its tables; what is there at every call is returned. -/
namespace HpuCache.DictScan
open ChainedTable ScanOrder IncrementalDict

/-- The mask and the word after one more halving of the distance. -/
def revStep (st : BitVec 64 × BitVec 64) (s : Nat) : BitVec 64 × BitVec 64 :=
  let mask := st.1 ^^^ st.1 <<< s
  (mask,st.2 >>> s &&& mask ||| st.2 <<< s &&& ~~~mask)

def rev (v : BitVec 64) : BitVec 64 := ([32,16,8,4,2,1].foldl revStep (~~~0#64,v)).2

/-- Set the bits outside the mask, and count on in the mirror. -/
def nextCursor (mask v : BitVec 64) : BitVec 64 := rev (rev (v ||| ~~~mask) + 1#64)

section model
variable {κ β : Type}

def emitted (t : Dictht (κ × β)) (v : BitVec 64) : List (κ × β) := chain t.table (t.index v)

/-- `none` when the loop has not ended after so many chains. -/
def scanLoop (t1 : Dictht (κ × β)) (m0 : BitVec 64) : Nat → BitVec 64 → Option (List (κ × β) × BitVec 64)
  | 0, _ => none
  | n + 1, v =>
    let u := nextCursor t1.sizemask v
    if u &&& (m0 ^^^ t1.sizemask) = 0#64 then some (emitted t1 v,u)
    else do
      let rest ← scanLoop t1 m0 n u
      some (emitted t1 v ++ rest.1,rest.2)

def scanTables (t0 t1 : Dictht (κ × β)) (v : BitVec 64) : Option (List (κ × β) × BitVec 64) := do
  let rest ← scanLoop t1 t0.sizemask t1.size v
  some (emitted t0 v ++ rest.1,rest.2)

def dictScan (d : Dict κ β) (v : BitVec 64) : Option (List (κ × β) × BitVec 64) :=
  if d.size = 0 then some ([],0#64)
  else if d.isRehashing then if d.ht0.size > d.ht1.size then scanTables d.ht1 d.ht0 v else scanTables d.ht0 d.ht1 v
  else some (emitted d.ht0 v,nextCursor d.ht0.sizemask v)

variable [DecidableEq κ] (hash : κ → BitVec 64)

/-- Scans one after the other, with calls to the dictionary between them: at each scan the dictionary and
what was returned, and the cursor at the end. -/
def scans (d : Dict κ β) (v : BitVec 64) : List (List (Op κ β)) → Option (List (Dict κ β × List (κ × β)) × BitVec 64)
  | [] => do
    let here ← dictScan d v
    some ([(d,here.1)],here.2)
  | ops :: later => do
    let here ← dictScan d v
    let next ← play hash d ops
    let rest ← scans next.1 here.2 later
    some ((d,here.1) :: rest.1,rest.2)

end model

section reverse

/-- Where a bit comes from in one exchange of neighbouring groups. -/
def swapped (s i : Nat) : Nat := if i / s % 2 = 0 then i + s else i - s

theorem stepGet {mask v : BitVec 64} {s : Nat} (alternate : ∀ i : Fin 64, (mask ^^^ mask <<< s).getLsbD i = decide (i.val / s % 2 = 0))
    {i : Nat} (inside : i < 64) :
    (revStep (mask,v) s).2.getLsbD i = v.getLsbD (swapped s i) := by
  have bit := alternate ⟨i,inside⟩
  simp only at bit
  rw [revStep,swapped]
  simp only [BitVec.getLsbD_or,BitVec.getLsbD_and,BitVec.getLsbD_not,bit,BitVec.getLsbD_ushiftRight,BitVec.getLsbD_shiftLeft]
  by_cases even : i / s % 2 = 0
  · simp [even,Nat.add_comm]
  · have behind : ¬ i < s := fun low => even (by rw [Nat.div_eq_of_lt low])
    simp [even,inside,behind]

def maskAt : Nat → BitVec 64
  | 0 => ~~~0#64
  | k + 1 => maskAt k ^^^ maskAt k <<< (32 / 2 ^ k)

def wordAt (v : BitVec 64) : Nat → BitVec 64
  | 0 => v
  | k + 1 => (revStep (maskAt k,wordAt v k) (32 / 2 ^ k)).2

theorem rounds (v : BitVec 64) (n : Nat) :
    (List.range n).foldl (fun st k => revStep st (32 / 2 ^ k)) (~~~0#64,v) = (maskAt n,wordAt v n) := by
  induction n with
  | zero => rfl
  | succ n ih =>
    rw [List.range_succ,List.foldl_append,ih]
    rfl

theorem masksAlternate : ∀ k : Fin 6, ∀ i : Fin 64,
    (maskAt k ^^^ maskAt k <<< (32 / 2 ^ k.val)).getLsbD i = decide (i.val / (32 / 2 ^ k.val) % 2 = 0) := by decide +kernel

theorem swappedInside : ∀ k : Fin 6, ∀ i : Fin 64, swapped (32 / 2 ^ k.val) i.val < 64 := by decide +kernel

theorem mirrored : ∀ i : Fin 64, swapped (32 / 2 ^ 0) (swapped (32 / 2 ^ 1) (swapped (32 / 2 ^ 2) (swapped (32 / 2 ^ 3)
    (swapped (32 / 2 ^ 4) (swapped (32 / 2 ^ 5) i.val))))) = 63 - i.val := by decide +kernel

theorem roundGet (v : BitVec 64) (k : Fin 6) {i : Nat} (inside : i < 64) :
    (wordAt v (k + 1)).getLsbD i = (wordAt v k).getLsbD (swapped (32 / 2 ^ k.val) i) :=
  stepGet (masksAlternate k) inside

theorem revReverse (v : BitVec 64) : rev v = v.reverse := by
  have distances : [32,16,8,4,2,1] = (List.range 6).map fun k => 32 / 2 ^ k := by decide
  have last : rev v = wordAt v 6 := by rw [rev,distances,List.foldl_map,rounds]
  apply BitVec.eq_of_getLsbD_eq
  intro i inside
  have b5 := swappedInside 5 ⟨i,inside⟩
  have b4 := swappedInside 4 ⟨_,b5⟩
  have b3 := swappedInside 3 ⟨_,b4⟩
  have b2 := swappedInside 2 ⟨_,b3⟩
  have b1 := swappedInside 1 ⟨_,b2⟩
  have moved : (rev v).getLsbD i = v.getLsbD (63 - i) := by
    rw [last,← mirrored ⟨i,inside⟩]
    exact (roundGet v 5 inside).trans ((roundGet v 4 b5).trans ((roundGet v 3 b4).trans ((roundGet v 2 b3).trans
      ((roundGet v 1 b2).trans (roundGet v 0 b1)))))
  rw [moved,BitVec.getLsbD_reverse,BitVec.getMsbD,decide_eq_true inside,Bool.true_and]

theorem nextAdvance {e : Nat} (v : BitVec 64) : nextCursor (lowMask e) v = advance e v := by
  rw [nextCursor,revReverse,revReverse,advance]

end reverse

section tables
variable {κ β : Type} {hash : κ → BitVec 64}

/-- What a scan from one cursor to the next returns: entries of the table, and every one that the cursor
leaves behind. -/
structure Sweeps (hash : κ → BitVec 64) (held : List (κ × β)) (v u : BitVec 64) (out : List (κ × β)) : Prop where
  known : ∀ x ∈ out, x ∈ held
  behind : ∀ x ∈ held, place (hash x.1) < place u ∨ u = 0#64 → place (hash x.1) < place v ∨ x ∈ out

theorem maskOf {t : Dictht (κ × β)} {e : Nat} (size : t.table.length = 2 ^ e) : t.sizemask = lowMask e := by
  rw [Dictht.sizemask,Dictht.size,size]
  rfl

theorem sweepOne {t : Dictht (κ × β)} (well : WellTable hash t) {e : Nat} (size : t.table.length = 2 ^ e) (small : e ≤ 63)
    (v : BitVec 64) : Sweeps hash t.table.flatten v (advance e v) (emitted t v) where
  known _ mem := chainMem mem
  behind x mem passed := by
    rcases advanceBehind (by omega) passed with before | here
    · exact .inl before
    · right
      have slot : t.index (hash x.1) = t.index v := by rw [indexCell size small,indexCell size small,here]
      have inside := (placedMem well.placed x).mp mem
      rwa [slot] at inside

theorem sweepFiner {t1 : Dictht (κ × β)} (well : WellTable hash t1) {coarse fine : Nat} (size : t1.table.length = 2 ^ fine)
    (finer : coarse ≤ fine) (small : fine ≤ 63) (n : Nat) {v : BitVec 64}
    (enough : 2 ^ (fine - coarse) ≤ within coarse fine v + n) :
    ∃ out, scanLoop t1 (lowMask coarse) n v = some (out,advance coarse v) ∧
      Sweeps hash t1.table.flatten v (advance coarse v) out := by
  induction n generalizing v with
  | zero =>
    have less : within coarse fine v < 2 ^ (fine - coarse) := Nat.mod_lt _ (Nat.two_pow_pos _)
    omega
  | succ n ih =>
    have one := sweepOne well size small v
    rw [scanLoop]
    simp only [maskOf size,nextAdvance,clearIff finer (show fine ≤ 64 by omega)]
    rcases fineStep finer (show fine ≤ 64 by omega) v with ⟨whole,last⟩ | ⟨counted,same⟩
    · rw [if_pos whole]
      rw [last] at one ⊢
      exact ⟨_,rfl,one⟩
    · rw [if_neg (by omega)]
      obtain ⟨out,rest,sweeps⟩ := @ih (advance fine v) (by omega)
      rw [same] at rest sweeps
      refine ⟨emitted t1 v ++ out,by rw [rest]; rfl,fun x mem => ?_,fun x mem passed => ?_⟩
      · rcases List.mem_append.mp mem with now | later
        · exact one.known x now
        · exact sweeps.known x later
      · rcases sweeps.behind x mem passed with before | later
        · rcases one.behind x mem (.inl before) with earlier | now
          · exact .inl earlier
          · exact .inr (List.mem_append_left _ now)
        · exact .inr (List.mem_append_right _ later)

theorem sweepBoth {t0 t1 : Dictht (κ × β)} (well0 : WellTable hash t0) (well1 : WellTable hash t1) (some0 : t0.table ≠ [])
    (some1 : t1.table ≠ []) (smaller : t0.size ≤ t1.size) (v : BitVec 64) :
    ∃ out u, scanTables t0 t1 v = some (out,u) ∧ Sweeps hash (t0.table.flatten ++ t1.table.flatten) v u out := by
  obtain ⟨coarse,small0,size0⟩ := well0.power some0
  obtain ⟨fine,small1,size1⟩ := well1.power some1
  have finer : coarse ≤ fine := by
    rw [Dictht.size,Dictht.size,size0,size1] at smaller
    exact (Nat.pow_le_pow_iff_right (by omega)).mp smaller
  have one := sweepOne well0 size0 (by omega) v
  have fuel : 2 ^ (fine - coarse) ≤ within coarse fine v + t1.size := by
    rw [Dictht.size,size1]
    exact Nat.le_trans (Nat.pow_le_pow_right (by omega) (Nat.sub_le _ _)) (Nat.le_add_left _ _)
  obtain ⟨out,looped,sweeps⟩ := sweepFiner well1 size1 finer (by omega) t1.size fuel
  refine ⟨emitted t0 v ++ out,advance coarse v,by rw [scanTables,maskOf size0,looped]; rfl,fun x mem => ?_,fun x mem passed => ?_⟩
  · rcases List.mem_append.mp mem with left | right
    · exact List.mem_append_left _ (one.known x left)
    · exact List.mem_append_right _ (sweeps.known x right)
  · rcases List.mem_append.mp mem with left | right
    · exact (one.behind x left passed).imp_right fun now => List.mem_append_left _ now
    · exact (sweeps.behind x right passed).imp_right fun now => List.mem_append_right _ now

theorem Sweeps.reorder {held other out : List (κ × β)} {v u : BitVec 64} (sweeps : Sweeps hash held v u out)
    (same : held.Perm other) : Sweeps hash other v u out :=
  ⟨fun x mem => same.mem_iff.mp (sweeps.known x mem),fun x mem => sweeps.behind x (same.mem_iff.mpr mem)⟩

theorem scanned {d : Dict κ β} (well : Well hash d) (v : BitVec 64) :
    ∃ out u, dictScan d v = some (out,u) ∧ Sweeps hash (items d) v u out := by
  rw [dictScan]
  split
  · rename_i empty
    refine ⟨[],0#64,rfl,fun x mem => by contradiction,fun x mem => ?_⟩
    rw [emptyItems well empty] at mem
    contradiction
  · rename_i filled
    split
    · rename_i running
      obtain ⟨r,busy⟩ := runningSome running
      obtain ⟨some0,some1,_⟩ := well.busy r busy
      split
      · rename_i larger
        obtain ⟨out,u,result,sweeps⟩ := sweepBoth well.second well.first some1 some0 (Nat.le_of_lt larger) v
        exact ⟨out,u,result,sweeps.reorder List.perm_append_comm⟩
      · rename_i smaller
        exact sweepBoth well.first well.second some0 some1 (Nat.le_of_not_lt smaller) v
    · rename_i still
      have second := well.idle (stillIdle still)
      have whole : items d = d.ht0.table.flatten := by
        rw [items,second]
        exact List.append_nil _
      have some0 : d.ht0.table ≠ [] := by
        intro none
        rw [well.size,whole,none] at filled
        exact filled rfl
      obtain ⟨e,small,size⟩ := well.first.power some0
      rw [whole,maskOf size,nextAdvance]
      exact ⟨_,_,rfl,sweepOne well.first size (by omega) v⟩

variable [DecidableEq κ]

theorem scansReturn {d : Dict κ β} (well : Well hash d) (v : BitVec 64) {batches : List (List (Op κ β))}
    (fit : ∀ op ∈ batches.flatten, op.Fits) (few : d.size + batches.flatten.length < maxChains) :
    ∃ calls u, scans hash d v batches = some (calls,u) ∧ (∀ call ∈ calls, ∀ e ∈ call.2, e ∈ items call.1) ∧
      ∀ key, (∀ call ∈ calls, ∃ e ∈ items call.1, e.1 = key) → place (hash key) < place u ∨ u = 0#64 →
        place (hash key) < place v ∨ ∃ call ∈ calls, ∃ e ∈ call.2, e.1 = key := by
  induction batches generalizing d v with
  | nil =>
    obtain ⟨out,u,result,sweeps⟩ := scanned well v
    refine ⟨[(d,out)],u,by rw [scans,result]; rfl,fun call mem => ?_,fun key stable passed => ?_⟩
    · rw [List.mem_singleton.mp mem]
      exact sweeps.known
    · obtain ⟨e,mem,rfl⟩ := stable _ (List.mem_singleton.mpr rfl)
      exact (sweeps.behind e mem passed).imp_right fun now => ⟨_,List.mem_singleton.mpr rfl,e,now,rfl⟩
  | cons ops later ih =>
    rw [List.flatten_cons,List.length_append] at few
    rw [List.flatten_cons,List.forall_mem_append] at fit
    obtain ⟨out,u,result,sweeps⟩ := scanned well v
    obtain ⟨next,played,refines,grown⟩ := refinesRun fit.1 (m := ⟨items d,well.keys⟩) ⟨well,.refl _⟩ (by omega)
    obtain ⟨calls,last,rest,held,returned⟩ := ih refines.well u fit.2 (by omega)
    refine ⟨(d,out) :: calls,last,?_,fun call mem => ?_,fun key stable passed => ?_⟩
    · rw [scans,result]
      simp only [Option.bind_eq_bind,Option.bind_some,played,rest]
    · rcases List.mem_cons.mp mem with rfl | after
      · exact sweeps.known
      · exact held call after
    · obtain ⟨e,mem,rfl⟩ := stable _ List.mem_cons_self
      rcases returned _ (fun call after => stable call (List.mem_cons_of_mem _ after)) passed with before | ⟨call,after,found⟩
      · exact (sweeps.behind e mem (.inl before)).imp_right fun now => ⟨_,List.mem_cons_self,e,now,rfl⟩
      · exact .inr ⟨call,List.mem_cons_of_mem _ after,found⟩

/-- A scan that started and ended with the cursor 0 has returned every key that was there at each of its
calls, however the dictionary was used, grown, shrunk and moved between them. -/
theorem scanComplete (hash : κ → BitVec 64) (before : List (Op κ β)) (batches : List (List (Op κ β)))
    (few : before.length + batches.flatten.length < maxChains) (fit : ∀ op ∈ before ++ batches.flatten, op.Fits) :
    ∃ d replies calls u, play hash dictCreate before = some (d,replies) ∧ scans hash d 0#64 batches = some (calls,u) ∧
      (∀ call ∈ calls, ∀ e ∈ call.2, e ∈ items call.1) ∧
      (u = 0#64 → ∀ key, (∀ call ∈ calls, ∃ e ∈ items call.1, e.1 = key) →
        ∃ call ∈ calls, ∃ e ∈ call.2, e.1 = key) := by
  have size : (dictCreate : Dict κ β).size = 0 := rfl
  rw [List.forall_mem_append] at fit
  obtain ⟨d,played,refines,grown⟩ := refinesRun fit.1 (@createRefines κ β hash) (by rw [size]; omega)
  obtain ⟨calls,u,result,held,returned⟩ := scansReturn refines.well 0#64 fit.2 (by omega)
  refine ⟨d,_,calls,u,played,result,held,fun done key stable => ?_⟩
  rcases returned key stable (.inr done) with none | found
  · rw [placeZero] at none
    exact absurd none (Nat.not_lt_zero _)
  · exact found

/-- A scan in four calls, over a dictionary that starts to grow after the first. -/
theorem scanCompleteMet : ∃ d replies calls, play (fun k : Nat => BitVec.ofNat 64 k) dictCreate
      [.add ⟨true,true⟩ 9 'a',.add ⟨true,true⟩ 2 'b'] = some (d,replies) ∧
    scans (fun k : Nat => BitVec.ofNat 64 k) d 0#64 [[.expand 8],[.rehash 1],[]] = some (calls,0#64) ∧
    ∃ call ∈ calls, ∃ e ∈ call.2, e.1 = 9 := by
  obtain ⟨d,replies,calls,u,played,result,_,returned⟩ := scanComplete (fun k : Nat => BitVec.ofNat 64 k)
    [.add ⟨true,true⟩ 9 'a',.add ⟨true,true⟩ 2 'b'] [[.expand 8],[.rehash 1],[]] (by decide) (by decide)
  have run : ((play (fun k : Nat => BitVec.ofNat 64 k) dictCreate [.add ⟨true,true⟩ 9 'a',.add ⟨true,true⟩ 2 'b']).bind
      fun p => scans (fun k : Nat => BitVec.ofNat 64 k) p.1 0#64 [[.expand 8],[.rehash 1],[]]).map
        (fun r => (r.2,r.1.all fun call => (items call.1).any fun e => e.1 = 9)) = some (0#64,true) := by decide +kernel
  rw [played,Option.bind_some,result,Option.map_some] at run
  obtain ⟨rfl,stable⟩ := Prod.mk.inj (Option.some.inj run)
  refine ⟨d,replies,calls,played,result,returned rfl 9 fun call mem => ?_⟩
  simpa using List.all_eq_true.mp stable call mem

end tables

end HpuCache.DictScan
