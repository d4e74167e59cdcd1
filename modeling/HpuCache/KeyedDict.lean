import Mathlib.Data.List.Basic
import Mathlib.Data.List.Nodup
import Mathlib.Data.List.Perm.Basic

/-! Dictionaries whose entries determine their own key. The carrier cannot hold
two entries of one key, and no result depends on the order of its entries. -/
namespace HpuCache.KeyedDict

variable {κ α : Type} {key : α → κ}

structure Dict (key : α → κ) where
  entries : List α
  distinct : (entries.map key).Nodup

/-- The order in which one iteration meets the entries: any rearrangement of them. -/
structure IterOrder (α : Type) where
  arrange : List α → List α
  perm : ∀ entries, (arrange entries).Perm entries

def IterOrder.asStored : IterOrder α := ⟨id,fun _ => .refl _⟩

namespace Dict

def empty : Dict key := ⟨[],.nil⟩
def size (d : Dict key) : Nat := d.entries.length

theorem entryUnique (d : Dict key) {e f : α} (left : e ∈ d.entries) (right : f ∈ d.entries)
    (same : key e = key f) : e = f :=
  List.inj_on_of_nodup_map d.distinct left right same

@[simp] theorem sizeEmpty : (empty : Dict key).size = 0 := rfl

variable [DecidableEq κ]

def find (d : Dict key) (k : κ) : Option α := d.entries.find? (fun e => key e = k)
def has (d : Dict key) (k : κ) : Bool := d.entries.any (fun e => key e = k)

def delete (d : Dict key) (k : κ) : Dict key :=
  ⟨d.entries.filter (fun e => key e ≠ k),
    d.distinct.sublist (List.filter_sublist.map key)⟩

theorem keyDeleted (d : Dict key) (k : κ) : k ∉ (d.delete k).entries.map key := by
  simp [delete]

def replace (d : Dict key) (e : α) : Dict key :=
  ⟨(d.delete (key e)).entries ++ [e],by
    rw [List.map_append,List.nodup_append]
    refine ⟨(d.delete (key e)).distinct,by simp,?_⟩
    intro k member last same head
    simp only [List.map_cons,List.map_nil,List.mem_singleton] at same
    subst same
    exact keyDeleted d (key e) (head ▸ member)⟩

/-- An entry of a new key is added; an existing key is an error. -/
def add (d : Dict key) (e : α) : Option (Dict key) :=
  if d.has (key e) then none else some (d.replace e)

/-- An existing key is deleted; a missing key is an error. -/
def remove (d : Dict key) (k : κ) : Option (Dict key) :=
  if d.has k then some (d.delete k) else none

theorem hasIff (d : Dict key) (k : κ) : d.has k = true ↔ ∃ e ∈ d.entries, key e = k := by
  simp [has]

theorem findMem {d : Dict key} {k : κ} {e : α} (found : d.find k = some e) :
    e ∈ d.entries ∧ key e = k :=
  ⟨List.mem_of_find?_eq_some found,by simpa using List.find?_some found⟩

theorem findIff {d : Dict key} {k : κ} {e : α} :
    d.find k = some e ↔ e ∈ d.entries ∧ key e = k := by
  refine ⟨findMem,?_⟩
  rintro ⟨member,rfl⟩
  obtain ⟨f,found⟩ : ∃ f, d.find (key e) = some f := by
    rw [← Option.isSome_iff_exists,find,List.find?_isSome]
    exact ⟨e,member,by simp⟩
  obtain ⟨inside,same⟩ := findMem found
  rw [found,entryUnique d inside member same]

theorem findNone {d : Dict key} {k : κ} : d.find k = none ↔ ∀ e ∈ d.entries, key e ≠ k := by
  simp [find]

theorem hasFind (d : Dict key) (k : κ) : d.has k = (d.find k).isSome := by
  rw [find,List.isSome_find?,has]

@[simp] theorem findEmpty (k : κ) : (empty : Dict key).find k = none := rfl
theorem memDelete {d : Dict key} {k : κ} {e : α} :
    e ∈ (d.delete k).entries ↔ e ∈ d.entries ∧ key e ≠ k := by
  simp [delete]

theorem memReplace {d : Dict key} {e f : α} :
    f ∈ (d.replace e).entries ↔ f = e ∨ (f ∈ d.entries ∧ key f ≠ key e) := by
  simp only [replace,List.mem_append,List.mem_singleton]
  rw [memDelete,or_comm]

theorem findReplaceSame (d : Dict key) (e : α) : (d.replace e).find (key e) = some e :=
  findIff.mpr ⟨memReplace.mpr (.inl rfl),rfl⟩

theorem findReplaceOther (d : Dict key) {e : α} {k : κ} (other : key e ≠ k) :
    (d.replace e).find k = d.find k := by
  apply Option.ext
  intro f
  rw [findIff,findIff,memReplace]
  constructor
  · rintro ⟨rfl | ⟨member,_⟩,same⟩
    · exact absurd same other
    · exact ⟨member,same⟩
  · rintro ⟨member,same⟩
    exact ⟨.inr ⟨member,fun head => other (head.symm.trans same)⟩,same⟩

theorem findDeleteSame (d : Dict key) (k : κ) : (d.delete k).find k = none := by
  rw [findNone]
  intro e member
  exact (memDelete.mp member).2

theorem findDeleteOther (d : Dict key) {k j : κ} (other : j ≠ k) : (d.delete k).find j = d.find j := by
  apply Option.ext
  intro e
  rw [findIff,findIff,memDelete]
  constructor
  · rintro ⟨⟨member,_⟩,same⟩
    exact ⟨member,same⟩
  · rintro ⟨member,same⟩
    exact ⟨⟨member,fun clash => other (same.symm.trans clash)⟩,same⟩

theorem findReplace (d : Dict key) (e : α) (k : κ) :
    (d.replace e).find k = if key e = k then some e else d.find k := by
  split
  · next same => exact same ▸ findReplaceSame d e
  · next other => exact findReplaceOther d other

theorem findDelete (d : Dict key) (k j : κ) : (d.delete k).find j = if k = j then none else d.find j := by
  split
  · next same => exact same ▸ findDeleteSame d k
  · next other => exact findDeleteOther d (Ne.symm other)

/-- Every entry is changed in place, and keeps its key. -/
def mapEntries (d : Dict key) (f : α → α) (keeps : ∀ e, key (f e) = key e) : Dict key :=
  ⟨d.entries.map f,by
    have names : (d.entries.map f).map key = d.entries.map key := by
      rw [List.map_map]
      exact List.map_congr_left fun e _ => keeps e
    rw [names]
    exact d.distinct⟩

theorem findMap (d : Dict key) {f : α → α} (keeps : ∀ e, key (f e) = key e) (k : κ) :
    (d.mapEntries f keeps).find k = (d.find k).map f := by
  simp only [find,mapEntries,List.find?_map,Function.comp_def,keeps]

theorem hasReplace (d : Dict key) (e : α) (k : κ) :
    (d.replace e).has k = (decide (key e = k) || d.has k) := by
  rw [Bool.eq_iff_iff]
  simp only [hasIff,Bool.or_eq_true,decide_eq_true_eq,memReplace]
  constructor
  · rintro ⟨f,rfl | ⟨member,_⟩,same⟩
    · exact .inl same
    · exact .inr ⟨f,member,same⟩
  · rintro (same | ⟨f,member,same⟩)
    · exact ⟨e,.inl rfl,same⟩
    · by_cases head : key f = key e
      · exact ⟨e,.inl rfl,head.symm.trans same⟩
      · exact ⟨f,.inr ⟨member,head⟩,same⟩

theorem hasDelete (d : Dict key) (k j : κ) :
    (d.delete k).has j = (decide (j ≠ k) && d.has j) := by
  rw [Bool.eq_iff_iff]
  simp only [hasIff,Bool.and_eq_true,decide_eq_true_eq,memDelete]
  constructor
  · rintro ⟨f,⟨member,other⟩,rfl⟩
    exact ⟨other,f,member,rfl⟩
  · rintro ⟨other,f,member,rfl⟩
    exact ⟨f,⟨member,other⟩,rfl⟩

theorem sizeReplace (d : Dict key) (e : α) : (d.replace e).size = (d.delete (key e)).size + 1 := by
  simp [size,replace]

theorem sizeReplaceLe (d : Dict key) (e : α) : (d.replace e).size ≤ d.size + 1 := by
  rw [sizeReplace]
  exact Nat.succ_le_succ (List.length_filter_le _ _)

theorem sizeDelete {d : Dict key} {e : α} (member : e ∈ d.entries) :
    (d.delete (key e)).size + 1 = d.size := by
  obtain ⟨front,back,shape⟩ := List.append_of_mem member
  have distinct := d.distinct
  rw [shape,List.map_append,List.map_cons,List.nodup_append] at distinct
  obtain ⟨_,tail,apart⟩ := distinct
  have frontKept : front.filter (fun f => key f ≠ key e) = front :=
    List.filter_eq_self.mpr (fun f hf => by
      simpa using apart (key f) (List.mem_map_of_mem hf) (key e) List.mem_cons_self)
  have backKept : back.filter (fun f => key f ≠ key e) = back :=
    List.filter_eq_self.mpr (fun f hf => by
      have other : key f ≠ key e := fun same =>
        (List.nodup_cons.mp tail).1 (same ▸ List.mem_map_of_mem hf)
      simpa using other)
  simp only [size,delete,shape,List.filter_append,List.length_append]
  rw [frontKept,List.filter_cons_of_neg (by simp),backKept]
  simp only [List.length_cons]
  omega

theorem deleteIdle {d : Dict key} {k : κ} (absent : d.has k = false) : d.delete k = d := by
  have kept : d.entries.filter (fun e => key e ≠ k) = d.entries := by
    apply List.filter_eq_self.mpr
    intro e member
    simp only [has,List.any_eq_false,decide_eq_true_eq] at absent
    simpa using absent e member
  cases d
  simpa [delete] using kept

end Dict
end HpuCache.KeyedDict
