import X64OS.Framework.ByteMemory
import X64OS.Framework.Overlay
import X64OS.Fs.HashMap

namespace X64OS.Fs

open Framework Function

/-- realloc, from one size to another: the bytes of the old block stay, what
comes behind them may be anything. -/
structure Realloc where
  run : Mem → Nat → Nat → Mem
  keeps : ∀ (mem : Mem) (old new i : Nat), i < old → run mem old new i=mem i

/-- An item is key_data, key_length and a pointer. -/
def sizeofItem : Nat := 272

def keyDataAt (i : Nat) : Nat := i*sizeofItem

def keyLengthAt (i : Nat) : Nat := i*sizeofItem+hashmapKeyDataMax

def itemAt (i : Nat) : Nat := i*sizeofItem+hashmapKeyDataMax+8

theorem keyLengthAt_eq (i : Nat) : keyLengthAt i=keyDataAt i+256 := rfl

theorem itemAt_eq (i : Nat) : itemAt i=keyDataAt i+264 := rfl

theorem keyDataAt_succ (i : Nat) : keyDataAt (i+1)=keyDataAt i+272 := Nat.succ_mul i 272

theorem keyDataAt_mono {i j : Nat} (h : i ≤ j) : keyDataAt i ≤ keyDataAt j :=
  Nat.mul_le_mul_right _ h

/-- A bucket, with the block of cap items that it points to. -/
structure BucketBytes where
  cap : Nat
  filled : Nat
  items : Mem
  filled_le : filled ≤ cap

namespace BucketBytes

variable (re : Realloc) (b : BucketBytes) (key : Str) (item : BitVec 64)

def zero : BucketBytes := ⟨0,0,fun _ => 0,le_rfl⟩

def alloc : BucketBytes :=
  if h : b.cap=0 then ⟨16,b.filled,fun _ => 0,by have := b.filled_le; omega⟩ else b

def double : BucketBytes :=
  if b.filled=b.cap then
    ⟨b.cap*2,b.filled,re.run b.items (b.cap*sizeofItem) (b.cap*2*sizeofItem),
      by have := b.filled_le; omega⟩
  else b

theorem alloc_cap_pos : 0 < b.alloc.cap := by
  rw [alloc]
  split
  · exact Nat.succ_pos 15
  · exact Nat.pos_of_ne_zero ‹_›

theorem double_filled_lt (h : 0 < b.cap) : (b.double re).filled < (b.double re).cap := by
  have hle := b.filled_le
  rw [double]
  split
  · dsimp only
    omega
  · omega

def stored : Mem :=
  Mem.write64 (Mem.write64 (overlay b.items (keyDataAt b.filled) key) (keyLengthAt b.filled)
    (BitVec.ofNat 64 key.length)) (itemAt b.filled) item

/-- The new item; there is no result if the copy leaves the block. -/
def append (h : b.filled < b.cap) : Option BucketBytes :=
  if keyDataAt b.filled+key.length ≤ b.cap*sizeofItem then
    some ⟨b.cap,b.filled+1,b.stored key item,h⟩
  else none

/-- The loop of HASHMAP_GET over the items from i on; memcmp returns 0 for equal bytes. -/
def scan : Nat → Nat → Option (BitVec 64)
  | 0,_ => none
  | n+1,i =>
    if (b.items.read64 (keyLengthAt i)).toNat≠key.length then scan n (i+1)
    else if window b.items (keyDataAt i) key.length=key then some (b.items.read64 (itemAt i))
    else scan n (i+1)

end BucketBytes

/-- HASHMAP_TYPE of pointers, in memory. -/
structure HashMapBytes where
  cap : Nat
  buckets : Option (Nat → BucketBytes)

namespace HashMapBytes

variable (re : Realloc) (m : HashMapBytes) (key : Str) (item : BitVec 64)

def init (cap : Nat) : HashMapBytes := ⟨cap,none⟩

def index : Nat := (hash key).toNat%m.cap

def bucketArray : Nat → BucketBytes := m.buckets.getD (fun _ => .zero)

/-- HASHMAP_INSERT; there is no result where it divides by 0 or leaves the block of items. -/
def insert : Option HashMapBytes :=
  if m.cap=0 then none
  else
    let bucket := (m.bucketArray (m.index key)).alloc
    ((bucket.double re).append key item (bucket.double_filled_lt re (BucketBytes.alloc_cap_pos _))).map
      (fun bucket => ⟨m.cap,some (update m.bucketArray (m.index key) bucket)⟩)

def get : Option (BitVec 64) :=
  match m.buckets with
  | none => none
  | some buckets => (buckets (m.index key)).scan key (buckets (m.index key)).filled 0

end HashMapBytes

def BucketBytes.slot (b : BucketBytes) (i : Nat) : Item (BitVec 64) :=
  ⟨window b.items (keyDataAt i) (b.items.read64 (keyLengthAt i)).toNat,b.items.read64 (itemAt i)⟩

def BucketBytes.view (b : BucketBytes) : Bucket (BitVec 64) :=
  ⟨b.cap,(List.range b.filled).map b.slot⟩

def HashMapBytes.view (m : HashMapBytes) : HashMap (BitVec 64) :=
  ⟨m.cap,m.buckets.map (fun buckets i => (buckets i).view)⟩

namespace BucketBytes

variable {b : BucketBytes} {key : Str} {item : BitVec 64}

section
variable (b : BucketBytes) (key : Str)

/-- Length first and bytes then is equality of the keys. -/
theorem slot_key_iff (i : Nat) : (b.slot i).key=key ↔
    (b.items.read64 (keyLengthAt i)).toNat=key.length ∧
      window b.items (keyDataAt i) key.length=key := by
  rw [slot]
  constructor
  · intro h
    have hlen : (b.items.read64 (keyLengthAt i)).toNat=key.length := by
      rw [← h,length_window]
    exact ⟨hlen,by rw [← hlen]; exact h⟩
  · rintro ⟨hlen,h⟩
    rw [hlen]
    exact h

theorem scan_succ (n i : Nat) : b.scan key (n+1) i=
    if (b.slot i).key=key then some (b.slot i).item else b.scan key n (i+1) := by
  have hkey := b.slot_key_iff key i
  rw [scan]
  by_cases hlen : (b.items.read64 (keyLengthAt i)).toNat=key.length
  · rw [if_neg (not_not_intro hlen)]
    by_cases hbytes : window b.items (keyDataAt i) key.length=key
    · rw [if_pos hbytes,if_pos (hkey.mpr ⟨hlen,hbytes⟩),slot]
    · rw [if_neg hbytes,if_neg (fun h => hbytes (hkey.mp h).2)]
  · rw [if_pos hlen,if_neg (fun h => hlen (hkey.mp h).1)]

theorem scan_eq (n i : Nat) : b.scan key n i=
    (((List.range' i n).map b.slot).find? (fun x => decide (x.key=key))).map (fun x => x.item) := by
  induction n generalizing i with
  | zero => rfl
  | succ n ih =>
    rw [scan_succ,List.range'_succ,List.map_cons]
    by_cases h : (b.slot i).key=key
    · rw [if_pos h,List.find?_cons_of_pos (by simpa using h),Option.map_some]
    · rw [if_neg h,List.find?_cons_of_neg (by simpa using h),ih]

end

theorem slot_congr {b b' : BucketBytes} {i : Nat}
    (h : ∀ x, keyDataAt i ≤ x → x < keyDataAt (i+1) → b'.items x=b.items x)
    (hfits : (b.slot i).key.length ≤ hashmapKeyDataMax) : b'.slot i=b.slot i := by
  have hnext := keyDataAt_succ i
  have hword : ∀ a, keyDataAt i ≤ a → a+8 ≤ keyDataAt (i+1) →
      b'.items.read64 a=b.items.read64 a := by
    intro a hlo hhi
    apply Mem.read64_congr
    intro x hx
    rw [Span.mem_mk] at hx
    exact h x (by omega) (by omega)
  have hlen : b'.items.read64 (keyLengthAt i)=b.items.read64 (keyLengthAt i) :=
    hword _ (by rw [keyLengthAt_eq]; omega) (by rw [keyLengthAt_eq]; omega)
  have hitem : b'.items.read64 (itemAt i)=b.items.read64 (itemAt i) :=
    hword _ (by rw [itemAt_eq]; omega) (by rw [itemAt_eq]; omega)
  rw [slot,length_window,hashmapKeyDataMax] at hfits
  rw [slot,slot,hlen,hitem]
  congr 1
  apply window_congr
  intro k hk
  exact h _ (Nat.le_add_right _ _) (by omega)

theorem stored_slot {b b' : BucketBytes} (hitems : b'.items=b.stored key item)
    (hkey : key.length ≤ hashmapKeyDataMax) : b'.slot b.filled=⟨key,item⟩ := by
  have hlen : b'.items.read64 (keyLengthAt b.filled)=BitVec.ofNat 64 key.length := by
    rw [hitems,stored,Mem.read64_write64_of_le _ _ _ _ (by rw [itemAt_eq,keyLengthAt_eq]; omega),
      Mem.read64_write64]
  have hnat : (BitVec.ofNat 64 key.length).toNat=key.length := by
    rw [BitVec.toNat_ofNat]
    exact Nat.mod_eq_of_lt (by rw [hashmapKeyDataMax] at hkey; omega)
  have hitem : b'.items.read64 (itemAt b.filled)=item := by
    rw [hitems,stored,Mem.read64_write64]
  rw [slot,hlen,hnat,hitem]
  congr 1
  conv_rhs => rw [← window_overlay b.items (keyDataAt b.filled) key]
  apply window_congr
  intro k hk
  rw [hashmapKeyDataMax] at hkey
  rw [hitems,stored,Mem.sameOff_write64 _ _ _ _ (by rw [Span.mem_mk,itemAt_eq]; omega),
    Mem.sameOff_write64 _ _ _ _ (by rw [Span.mem_mk,keyLengthAt_eq]; omega)]

/-- A longer key is stored over, and equal to what is there only if its byte 256 is
that of its length. -/
theorem stored_slot_long {b b' : BucketBytes} (hitems : b'.items=b.stored key item)
    (hlong : hashmapKeyDataMax < key.length) (h : (b'.slot b.filled).key=key) :
    key[hashmapKeyDataMax]?=some (BitVec.ofNat 8 key.length) := by
  have hbytes := ((b'.slot_key_iff key b.filled).mp h).2
  have hat : b'.items (keyLengthAt b.filled)=BitVec.ofNat 8 key.length := by
    rw [hitems,stored,Mem.sameOff_write64 _ _ _ _
      (by rw [Span.mem_mk,itemAt_eq,keyLengthAt_eq]; omega),Mem.write64,Mem.writeBytes,
      if_pos (by rw [Span.mem_mk]; omega),Nat.sub_self,Nat.pow_zero,Nat.div_one,BitVec.toNat_ofNat]
    apply BitVec.eq_of_toNat_eq
    rw [BitVec.toNat_ofNat,BitVec.toNat_ofNat]
    omega
  rw [← hat,← hbytes,window,List.getElem?_map,List.getElem?_range hlong]
  rfl

theorem stored_of_lt (b : BucketBytes) (key : Str) (item : BitVec 64) {x : Nat}
    (hx : x < keyDataAt b.filled) : b.stored key item x=b.items x := by
  rw [stored,Mem.sameOff_write64 _ _ _ _ (by rw [Span.mem_mk,itemAt_eq]; omega),
    Mem.sameOff_write64 _ _ _ _ (by rw [Span.mem_mk,keyLengthAt_eq]; omega),overlay_of_lt hx]

def Fits (b : BucketBytes) : Prop := ∀ x∈b.view.items, x.key.length ≤ hashmapKeyDataMax

theorem Fits.slot {b : BucketBytes} (hb : b.Fits) {i : Nat} (hi : i < b.filled) :
    (b.slot i).key.length ≤ hashmapKeyDataMax :=
  hb _ (List.mem_map_of_mem (List.mem_range.mpr hi))

theorem alloc_view (b : BucketBytes) :
    b.alloc.view=⟨if b.cap=0 then 16 else b.cap,b.view.items⟩ := by
  have hle := b.filled_le
  rw [alloc]
  split
  · have hz : b.filled=0 := by omega
    simp [view,hz]
  · rfl

theorem double_view {b : BucketBytes} (re : Realloc) (hb : b.Fits) :
    (b.double re).view=⟨if b.filled=b.cap then b.cap*2 else b.cap,b.view.items⟩ := by
  rw [double]
  split
  · rename_i hfull
    rw [view,view]
    congr 1
    apply List.map_congr_left
    intro i hi
    have hi' : i < b.filled := List.mem_range.mp hi
    refine slot_congr ?_ (hb.slot hi')
    intro x _ hx
    apply re.keeps
    have hle := keyDataAt_mono (show i+1 ≤ b.cap by omega)
    rw [keyDataAt] at hle
    exact Nat.lt_of_lt_of_le hx hle
  · rfl

theorem reserve_view {b : BucketBytes} (re : Realloc) (hb : b.Fits) : (b.alloc.double re).view=
    let cap := if b.view.cap=0 then 16 else b.view.cap
    ⟨if b.view.items.length=cap then cap*2 else cap,b.view.items⟩ := by
  have halloc := alloc_view b
  have hcap : b.alloc.cap=if b.cap=0 then 16 else b.cap := congrArg Bucket.cap halloc
  have hitems : b.alloc.view.items=b.view.items := by rw [halloc]
  have hfilled : b.alloc.filled=b.view.items.length := by
    rw [← hitems]
    simp [view]
  have ha : b.alloc.Fits := by
    rw [Fits,hitems]
    exact hb
  rw [double_view re ha,hfilled,hcap,hitems]
  rfl

theorem append_view {b b' : BucketBytes} {h : b.filled < b.cap} (hb : b.Fits)
    (happ : b.append key item h=some b') : b'.items=b.stored key item ∧
      b'.view=⟨b.view.cap,b.view.items++[b'.slot b.filled]⟩ := by
  rw [append] at happ
  split at happ
  · cases happ
    refine ⟨rfl,?_⟩
    simp only [view]
    rw [List.range_succ,List.map_append,List.map_singleton]
    congr 2
    apply List.map_congr_left
    intro i hi
    have hi' : i < b.filled := List.mem_range.mp hi
    refine slot_congr ?_ (hb.slot hi')
    intro x _ hx
    exact stored_of_lt b key item (Nat.lt_of_lt_of_le hx (keyDataAt_mono hi'))
  · cases happ

theorem append_isSome {b : BucketBytes} (h : b.filled < b.cap)
    (hkey : key.length ≤ hashmapKeyDataMax) (item : BitVec 64) : ∃ b', b.append key item h=some b' := by
  have hle := keyDataAt_mono (show b.filled+1 ≤ b.cap from h)
  rw [keyDataAt_succ] at hle
  rw [hashmapKeyDataMax] at hkey
  exact ⟨_,if_pos (show keyDataAt b.filled+key.length ≤ keyDataAt b.cap by omega)⟩

end BucketBytes

namespace HashMapBytes

variable {m m' : HashMapBytes} {key : Str} {item : BitVec 64}

def Fits (m : HashMapBytes) : Prop := ∀ i, (m.bucketArray i).Fits

theorem init_fits (cap : Nat) : (init cap).Fits := fun _ _ hx => absurd hx List.not_mem_nil

theorem view_bucketArray (m : HashMapBytes) :
    m.view.bucketArray=fun i => (m.bucketArray i).view := by
  rw [HashMap.bucketArray,view,bucketArray]
  cases m.buckets <;> rfl

theorem get_eq_scan (m : HashMapBytes) (key : Str) : m.get key=
    (m.bucketArray (m.index key)).scan key (m.bucketArray (m.index key)).filled 0 := by
  rw [get,bucketArray]
  cases m.buckets <;> rfl

/-- HASHMAP_GET computes get. -/
theorem view_get (m : HashMapBytes) (key : Str) : m.view.get key=m.get key := by
  rw [HashMap.get_eq,view_bucketArray,get_eq_scan,BucketBytes.scan_eq,← List.range_eq_range']
  rfl

/-- What HASHMAP_INSERT does to the items, whatever the key. -/
theorem insert_cases {re : Realloc} (hm : m.Fits) (h : m.insert re key item=some m') :
    ∃ b b' : BucketBytes, b'.items=b.stored key item ∧ m'.view=
      let bucket := m.view.bucketArray (m.index key)
      let cap := if bucket.cap=0 then 16 else bucket.cap
      ⟨m.cap,some (update m.view.bucketArray (m.index key)
        ⟨if bucket.items.length=cap then cap*2 else cap,bucket.items++[b'.slot b.filled]⟩)⟩ := by
  have hreserve := BucketBytes.reserve_view re (hm (m.index key))
  have hfits : ((m.bucketArray (m.index key)).alloc.double re).Fits := by
    rw [BucketBytes.Fits,hreserve]
    exact hm (m.index key)
  rw [insert] at h
  split at h
  · cases h
  obtain ⟨b',happ,rfl⟩ := Option.map_eq_some_iff.mp h
  obtain ⟨hstored,hview⟩ := BucketBytes.append_view hfits happ
  refine ⟨_,b',hstored,?_⟩
  have hnew : HashMapBytes.view ⟨m.cap,some (update m.bucketArray (m.index key) b')⟩=
      ⟨m.cap,some (update (fun i => (m.bucketArray i).view) (m.index key) b'.view)⟩ :=
    congrArg (fun f => HashMap.mk m.cap (some f))
      (Function.comp_update BucketBytes.view m.bucketArray (m.index key) b')
  rw [hreserve] at hview
  rw [hnew,hview,view_bucketArray]

theorem insert_isSome (re : Realloc) (hcap : m.cap≠0) (hkey : key.length ≤ hashmapKeyDataMax)
    (item : BitVec 64) : ∃ m', m.insert re key item=some m' := by
  obtain ⟨b,happ⟩ := BucketBytes.append_isSome
    ((m.bucketArray (m.index key)).alloc.double_filled_lt re (BucketBytes.alloc_cap_pos _)) hkey item
  rw [insert,if_neg hcap]
  dsimp only
  rw [happ]
  exact ⟨_,rfl⟩

/-- HASHMAP_INSERT of a key that fits computes insert. -/
theorem view_insert {re : Realloc} (hm : m.Fits) (hkey : key.length ≤ hashmapKeyDataMax)
    (h : m.insert re key item=some m') : m.view.insert key item=some m'.view := by
  have hcap : m.cap≠0 := by
    intro hz
    rw [insert,if_pos hz] at h
    cases h
  obtain ⟨b,b',hstored,hview⟩ := insert_cases hm h
  rw [hview,BucketBytes.stored_slot hstored hkey,HashMap.insert,
    if_neg (by rw [not_or,Nat.not_lt]; exact ⟨hcap,hkey⟩)]
  rfl

theorem Fits.insert {re : Realloc} (hm : m.Fits) (hkey : key.length ≤ hashmapKeyDataMax)
    (h : m.insert re key item=some m') : m'.Fits := by
  obtain ⟨-,-,-,cap,hb⟩ := HashMap.insert_some (view_insert hm hkey h)
  intro i
  have hi : (m'.bucketArray i).view=m'.view.bucketArray i := by rw [view_bucketArray]
  rw [BucketBytes.Fits,hi,hb]
  by_cases hidx : i=m.view.index key
  · rw [hidx,update_self]
    intro x hx
    rcases List.mem_append.mp hx with hx | hx
    · rw [view_bucketArray] at hx
      exact hm _ x hx
    · rw [List.mem_singleton.mp hx]
      exact hkey
  · rw [update_of_ne hidx,view_bucketArray]
    exact hm i

/-- A key that does not fit is stored, and not found. -/
theorem get_long {re : Realloc} (hm : m.Fits) (h : m.insert re key item=some m')
    (hlong : hashmapKeyDataMax < key.length)
    (hbyte : key[hashmapKeyDataMax]?≠some (BitVec.ofNat 8 key.length)) : m'.get key=none := by
  obtain ⟨b,b',hstored,hview⟩ := insert_cases hm h
  have hidx : m'.view.index key=m.index key := by
    rw [hview]
    rfl
  rw [← view_get,HashMap.get_eq_none_iff,hidx,hview]
  intro x hx
  rw [HashMap.bucketArray,Option.getD_some,update_self] at hx
  rcases List.mem_append.mp hx with hx | hx
  · rw [view_bucketArray] at hx
    have hfits := hm _ x hx
    intro hkey
    rw [hkey] at hfits
    omega
  · rw [List.mem_singleton.mp hx]
    exact fun hkey => hbyte (BucketBytes.stored_slot_long hstored hlong hkey)

def insertAll (re : Realloc) (m : HashMapBytes) (kvs : List (Str × BitVec 64)) : Option HashMapBytes :=
  kvs.foldlM (fun m kv => m.insert re kv.1 kv.2) m

theorem insertAll_get (re : Realloc) (hm : m.Fits) (hcap : m.cap≠0) (kvs : List (Str × BitVec 64))
    (hkeys : ∀ kv∈kvs, kv.1.length ≤ hashmapKeyDataMax) :
    ∃ m', m.insertAll re kvs=some m' ∧ ∀ key, m'.get key=
      (m.get key).or ((kvs.find? (fun kv => decide (kv.1=key))).map (fun kv => kv.2)) := by
  induction kvs generalizing m with
  | nil => exact ⟨m,rfl,fun key => (Option.or_none).symm⟩
  | cons kv kvs ih =>
    have hkey := hkeys kv List.mem_cons_self
    obtain ⟨m₁,hins⟩ := insert_isSome re hcap hkey kv.2
    have hview := view_insert hm hkey hins
    have hcap₁ : m₁.cap≠0 := by
      have hsame := (HashMap.insert_some hview).2.2.1
      exact fun h => hcap (hsame.symm.trans h)
    obtain ⟨m',hrest,hget⟩ := ih (hm.insert hkey hins) hcap₁ (fun x hx => hkeys x (List.mem_cons_of_mem _ hx))
    refine ⟨m',?_,?_⟩
    · rw [insertAll,List.foldlM_cons,hins]
      exact hrest
    · intro key
      rw [hget,← view_get,← view_get,HashMap.get_insert hview,Option.or_assoc]
      congr 1
      by_cases hk : kv.1=key
      · simp [hk]
      · simp [hk]

end HashMapBytes

/-- After any inserts of keys that fit, a lookup answers for the keys that were
inserted, and with the item that came first. -/
theorem hashmap_first_insertion (re : Realloc) (kvs : List (Str × BitVec 64))
    (hkeys : ∀ kv∈kvs, kv.1.length ≤ hashmapKeyDataMax) :
    ∃ m, (HashMapBytes.init 256).insertAll re kvs=some m ∧ ∀ key,
      ((m.get key).isSome ↔ key∈kvs.map Prod.fst) ∧
      m.get key=(kvs.find? (fun kv => decide (kv.1=key))).map Prod.snd := by
  obtain ⟨m,hm,hget⟩ := HashMapBytes.insertAll_get re (HashMapBytes.init_fits 256)
    (Nat.succ_ne_zero 255) kvs hkeys
  refine ⟨m,hm,?_⟩
  intro key
  have hfirst : m.get key=(kvs.find? (fun kv => decide (kv.1=key))).map Prod.snd := hget key
  refine ⟨?_,hfirst⟩
  rw [hfirst,Option.isSome_map,List.find?_isSome,List.mem_map]
  simp

def Realloc.inPlace : Realloc := ⟨fun mem _ _ => mem,fun _ _ _ _ _ => rfl⟩

/-- One key 20 times, so that its bucket grows, then another key and the first again. -/
theorem hashmap_first_insertion_grown : ∃ m,
    (HashMapBytes.init 256).insertAll .inPlace
      (List.replicate 20 ([97],1)++[([98],2),([97],3)])=some m ∧
    m.get [97]=some 1 ∧ m.get [98]=some 2 ∧ m.get [99]=none := by
  obtain ⟨m,hm,hget⟩ := hashmap_first_insertion .inPlace
    (List.replicate 20 ([97],1)++[([98],2),([97],3)]) (by decide)
  refine ⟨m,hm,?_⟩
  rw [(hget [97]).2,(hget [98]).2,(hget [99]).2]
  decide

end X64OS.Fs
