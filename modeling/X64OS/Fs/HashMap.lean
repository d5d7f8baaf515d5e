import Mathlib.Algebra.Group.Nat.Defs
import Mathlib.Data.List.Nodup
import Mathlib.Data.List.Range
import Mathlib.Logic.Function.Basic

namespace X64OS.Fs

open Function

/-- The bytes of a C string, without its NUL. -/
abbrev Str := List (BitVec 8)

def hash (data : Str) : BitVec 32 :=
  data.foldl (fun hash c => c.setWidth 32+(hash <<< 6)+(hash <<< 16)-hash) 0

structure Item (α : Type) where
  key : Str
  item : α

structure Bucket (α : Type) where
  cap : Nat
  items : List (Item α)

/-- HASHMAP_TYPE. The bucket array is NULL until the first insert. -/
structure HashMap (α : Type) where
  cap : Nat
  buckets : Option (Nat → Bucket α)

def hashmapKeyDataMax : Nat := 256

namespace HashMap

variable {α : Type} {m m' : HashMap α} {key k : Str} {item : α}

/-- HASHMAP_INIT; a node that is no directory has the zeroed map, with cap 0. -/
def init (cap : Nat) : HashMap α := ⟨cap,none⟩

section
variable (m : HashMap α)

def index (key : Str) : Nat := (hash key).toNat%m.cap

def bucketArray : Nat → Bucket α := m.buckets.getD (fun _ => ⟨0,[]⟩)

/-- HASHMAP_INSERT, as far as an item is what was put into it. There is no result where it divides by
a cap of 0; a key that is longer than key_data is stored over the fields behind it, which only the
bytes of the bucket can show. -/
def insert (key : Str) (item : α) : Option (HashMap α) :=
  if m.cap=0 ∨ hashmapKeyDataMax < key.length then none
  else
    let bucket := m.bucketArray (m.index key)
    let cap := if bucket.cap=0 then 16 else bucket.cap
    let cap := if bucket.items.length=cap then cap*2 else cap
    let bucket := ⟨cap,bucket.items++[⟨key,item⟩]⟩
    some ⟨m.cap,some (update m.bucketArray (m.index key) bucket)⟩

def get (key : Str) : Option α :=
  match m.buckets with
  | none => none
  | some buckets =>
    ((buckets (m.index key)).items.find? (fun x => decide (x.key=key))).map (fun x => x.item)

def entries : List (Item α) :=
  (List.range m.cap).flatMap (fun i => (m.bucketArray i).items)

end

@[simp] theorem get_init (cap : Nat) (key : Str) : (init cap : HashMap α).get key=none := rfl

theorem get_eq (m : HashMap α) (key : Str) :
    m.get key=((m.bucketArray (m.index key)).items.find? (fun x => decide (x.key=key))).map
      (fun x => x.item) := by
  rw [get,bucketArray]
  cases m.buckets <;> rfl

theorem insert_some (h : m.insert key item=some m') : m.cap≠0 ∧ key.length ≤ hashmapKeyDataMax ∧
    m'.cap=m.cap ∧ ∃ cap, m'.bucketArray=update m.bucketArray (m.index key)
      ⟨cap,(m.bucketArray (m.index key)).items++[⟨key,item⟩]⟩ := by
  rw [insert] at h
  split at h
  · cases h
  · rename_i hc
    cases h
    rw [not_or,Nat.not_lt] at hc
    exact ⟨hc.1,hc.2,rfl,_,rfl⟩

theorem insert_isSome (hc : m.cap≠0) (hk : key.length ≤ hashmapKeyDataMax) :
    ∃ m', m.insert key item=some m' := by
  rw [insert,if_neg (by rw [not_or,Nat.not_lt]; exact ⟨hc,hk⟩)]
  exact ⟨_,rfl⟩

theorem get_insert (h : m.insert key item=some m') (k : Str) :
    m'.get k=(m.get k).or (if key=k then some item else none) := by
  obtain ⟨-,-,hcap,cap,hb⟩ := insert_some h
  have hidx : m'.index k=m.index k := by rw [index,index,hcap]
  rw [get_eq,get_eq,hidx,hb]
  by_cases hi : m.index k=m.index key
  · rw [hi,update_self,List.find?_append,Option.map_or]
    by_cases hk : key=k
    · simp [hk]
    · simp [hk]
  · have hk : key≠k := by
      intro heq
      exact hi (by rw [heq])
    rw [update_of_ne hi,if_neg hk,Option.or_none]

theorem get_eq_none_iff (m : HashMap α) (key : Str) :
    m.get key=none ↔ ∀ x∈(m.bucketArray (m.index key)).items, x.key≠key := by
  rw [get_eq,Option.map_eq_none_iff,List.find?_eq_none]
  simp

/-- Every item stands in the bucket of its key, and no key twice in a bucket. -/
structure Distinct (m : HashMap α) : Prop where
  placed : ∀ i, ∀ x∈(m.bucketArray i).items, m.index x.key=i
  nodup : ∀ i, ((m.bucketArray i).items.map (fun x => x.key)).Nodup

theorem Distinct.init (cap : Nat) : (HashMap.init cap : HashMap α).Distinct :=
  ⟨fun _ _ hx => absurd hx List.not_mem_nil,fun _ => List.nodup_nil⟩

theorem Distinct.insert (hd : m.Distinct) (hn : m.get key=none) (h : m.insert key item=some m') :
    m'.Distinct := by
  obtain ⟨-,-,hcap,cap,hb⟩ := insert_some h
  have hidx : ∀ k, m'.index k=m.index k := fun k => by rw [index,index,hcap]
  rw [get_eq_none_iff] at hn
  refine ⟨?_,?_⟩
  · intro i x hx
    rw [hidx]
    rw [hb] at hx
    by_cases hi : i=m.index key
    · rw [hi,update_self,List.mem_append,List.mem_singleton] at hx
      rcases hx with hx | hx
      · rw [hi]
        exact hd.placed _ x hx
      · rw [hi,hx]
    · rw [update_of_ne hi] at hx
      exact hd.placed i x hx
  · intro i
    rw [hb]
    by_cases hi : i=m.index key
    · rw [hi,update_self,List.map_append,List.nodup_append']
      refine ⟨hd.nodup _,List.nodup_singleton _,?_⟩
      intro k hk hk'
      obtain ⟨x,hx,rfl⟩ := List.mem_map.mp hk
      exact hn x hx (List.mem_singleton.mp hk')
    · rw [update_of_ne hi]
      exact hd.nodup i

theorem Distinct.entries (hd : m.Distinct) : (m.entries.map (fun x => x.key)).Nodup := by
  rw [HashMap.entries,List.map_flatMap,List.nodup_flatMap]
  refine ⟨fun i _ => hd.nodup i,?_⟩
  refine List.Pairwise.imp ?_ List.nodup_range
  intro i j hij k hk hk'
  obtain ⟨x,hx,rfl⟩ := List.mem_map.mp hk
  obtain ⟨y,hy,heq⟩ := List.mem_map.mp hk'
  apply hij
  rw [← hd.placed i x hx,← hd.placed j y hy,heq]

theorem Distinct.mem_keys_iff (hd : m.Distinct) (hc : m.cap≠0) (key : Str) :
    key∈m.entries.map (fun x => x.key) ↔ m.get key≠none := by
  rw [Ne,get_eq_none_iff]
  push Not
  constructor
  · intro h
    obtain ⟨x,hx,rfl⟩ := List.mem_map.mp h
    obtain ⟨i,-,hi⟩ := List.mem_flatMap.mp hx
    refine ⟨x,?_,rfl⟩
    rw [hd.placed i x hi]
    exact hi
  · rintro ⟨x,hx,rfl⟩
    have hlt : m.index x.key < m.cap := Nat.mod_lt _ (Nat.pos_of_ne_zero hc)
    exact List.mem_map.mpr ⟨x,List.mem_flatMap.mpr ⟨_,List.mem_range.mpr hlt,hx⟩,rfl⟩

end HashMap

def Bucket.mapItems {α β : Type} (f : α → β) (b : Bucket α) : Bucket β :=
  ⟨b.cap,b.items.map (fun x => ⟨x.key,f x.item⟩)⟩

namespace HashMap

variable {α β : Type}

def mapItems (f : α → β) (m : HashMap α) : HashMap β :=
  ⟨m.cap,m.buckets.map (fun buckets i => (buckets i).mapItems f)⟩

variable (f : α → β) (m : HashMap α)

theorem mapItems_bucketArray :
    (m.mapItems f).bucketArray=fun i => (m.bucketArray i).mapItems f := by
  rw [bucketArray,bucketArray,mapItems]
  cases m.buckets <;> rfl

theorem mapItems_get (key : Str) : (m.mapItems f).get key=(m.get key).map f := by
  rw [get_eq,get_eq,mapItems_bucketArray]
  simp only [Bucket.mapItems,List.find?_map,Option.map_map]
  rfl

theorem mapItems_insert (key : Str) (item : α) :
    (m.mapItems f).insert key (f item)=(m.insert key item).map (mapItems f) := by
  rw [insert,insert]
  by_cases hok : m.cap=0 ∨ hashmapKeyDataMax < key.length
  · rw [if_pos hok]
    exact if_pos hok
  · have hnew (b : Bucket α) : mapItems f ⟨m.cap,some (update m.bucketArray (m.index key) b)⟩=
        ⟨m.cap,some (update (fun i => (m.bucketArray i).mapItems f) (m.index key)
          (b.mapItems f))⟩ :=
      congrArg (fun g => HashMap.mk m.cap (some g))
        (Function.comp_update (Bucket.mapItems f) m.bucketArray (m.index key) b)
    rw [if_neg hok,Option.map_some,hnew,if_neg (show ¬((m.mapItems f).cap=0 ∨ _) from hok),
      mapItems_bucketArray]
    simp only [Bucket.mapItems,List.length_map,List.map_append,List.map_singleton]
    rfl

end HashMap

end X64OS.Fs
