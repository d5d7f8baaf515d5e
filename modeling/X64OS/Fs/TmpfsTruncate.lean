import X64OS.Fs.Tmpfs

namespace X64OS.Fs

open Framework

def truncateCapacity (length : Nat) : Nat → Nat → Option Nat
  | 0,_ => none
  | n+1,capacity =>
    if capacity < length then truncateCapacity length n (capacity*2%2^64) else some capacity

/-- tmpfs_truncate; malloc, memcpy and free leave what realloc leaves. -/
def tmpfsTruncate (room : Nat → Bool) (r : Resource) (length : Nat) : Option (Bool × Resource) :=
  (if r.capacity < length then
    (truncateCapacity length 65 r.capacity).map (fun c =>
      if room c then some (r.realloc c) else none)
  else some (some r)).map (fun x =>
    match x with
    | none => (false,r)
    | some r => (true,{ r with stSize := length }))

/-- A call on a file, with the sizes that memory is found for. -/
inductive TmpfsCall where
  | write (room : Nat → Bool) (buf : Str) (offset : Nat)
  | truncate (room : Nat → Bool) (length : Nat)

def tmpfsCall (r : Resource) : TmpfsCall → Option (Bool × Resource)
  | .write room buf offset =>
    (tmpfsResourceWrite room r buf offset).map (fun x => (decide (x.1≠-1),x.2))
  | .truncate room length => tmpfsTruncate room r length

section Doubling

variable {stop n a c : Nat}

theorem growCapacity_zero (stop n : Nat) : growCapacity stop n 0=none := by
  induction n with
  | zero => rfl
  | succ n ih =>
    rw [growCapacity,if_pos (Nat.zero_le stop)]
    exact ih

theorem growCapacity_pow_succ (stop n : Nat) (ha : a ≤ 63) (hle : 2^a ≤ stop) :
    growCapacity stop (n+1) (2^a)=if a=63 then none else growCapacity stop n (2^(a+1)) := by
  rw [growCapacity,if_pos hle,← Nat.pow_succ]
  split
  · rename_i h63
    subst h63
    exact growCapacity_zero stop n
  · have hlt : 2^(a+1) < 2^64 := Nat.pow_lt_pow_right (by omega) (by omega)
    rw [Nat.mod_eq_of_lt hlt]

theorem growCapacity_lt {capacity : Nat} (h : growCapacity stop n capacity=some c) : stop < c := by
  induction n generalizing capacity with
  | zero => cases h
  | succ n ih =>
    rw [growCapacity] at h
    split at h
    · exact ih h
    · cases h
      omega

theorem growCapacity_pow (ha : a ≤ 63) (h : growCapacity stop n (2^a)=some c) :
    ∃ b, a ≤ b ∧ b ≤ 63 ∧ c=2^b := by
  induction n generalizing a with
  | zero => cases h
  | succ n ih =>
    by_cases hle : 2^a ≤ stop
    · rw [growCapacity_pow_succ stop n ha hle] at h
      split at h
      · cases h
      · obtain ⟨b,hab,hb,hc⟩ := ih (by omega) h
        exact ⟨b,by omega,hb,hc⟩
    · rw [growCapacity,if_neg hle] at h
      cases h
      exact ⟨a,le_rfl,ha,rfl⟩

/-- It ends, and soon, if the end of the write is below 2^63. -/
theorem growCapacity_pow_isSome (ha : a ≤ 63) (hstop : stop < 2^63) (hn : 64 ≤ a+n) :
    ∃ c, growCapacity stop n (2^a)=some c := by
  induction n generalizing a with
  | zero => omega
  | succ n ih =>
    by_cases hle : 2^a ≤ stop
    · have h63 : a≠63 := by
        intro h
        rw [h] at hle
        omega
      rw [growCapacity_pow_succ stop n ha hle,if_neg h63]
      exact ih (by omega) (by omega)
    · exact ⟨_,if_neg hle⟩

theorem growCapacity_pow_ends_iff (ha : a ≤ 63) :
    (∃ n c, growCapacity stop n (2^a)=some c) ↔ stop < 2^63 := by
  constructor
  · rintro ⟨n,c,h⟩
    obtain ⟨b,-,hb,rfl⟩ := growCapacity_pow ha h
    exact Nat.lt_of_lt_of_le (growCapacity_lt h) (Nat.pow_le_pow_right (by omega) hb)
  · intro hstop
    exact ⟨64,growCapacity_pow_isSome ha hstop (by omega)⟩

/-- The other loop compares the other way round. -/
theorem truncateCapacity_eq {length : Nat} (h : 0 < length) (n capacity : Nat) :
    truncateCapacity length n capacity=growCapacity (length-1) n capacity := by
  induction n generalizing capacity with
  | zero => rfl
  | succ n ih =>
    rw [truncateCapacity,growCapacity,ih]
    exact if_congr (by omega) rfl rfl

end Doubling

variable {r₁ r r' : Resource} {stop : Nat}

section Cases

variable {room : Nat → Bool} {c : TmpfsCall} {ok : Bool}

/-- The buffer with which a call goes on: the one there is, if it is large enough, or a larger one. -/
inductive Resource.Sized (room : Nat → Bool) (r : Resource) (stop : Nat) : Resource → Prop
  | same (h : stop < r.capacity) : Sized room r stop r
  | grown {c : Nat} (h : r.capacity ≤ stop) (hc : growCapacity stop 65 r.capacity=some c)
      (hroom : room c=true) : Sized room r stop (r.realloc c)

def Resource.Starved (room : Nat → Bool) (r : Resource) (stop : Nat) : Prop :=
  r.capacity ≤ stop ∧ ∃ c, growCapacity stop 65 r.capacity=some c ∧ room c=false

theorem reserve_cases {x : Option Resource} (h : (if r.capacity ≤ stop then
    (growCapacity stop 65 r.capacity).map (fun c => if room c then some (r.realloc c) else none)
    else some (some r))=some x) :
    (x=none ∧ r.Starved room stop) ∨ ∃ r₁, x=some r₁ ∧ r.Sized room stop r₁ := by
  split at h
  · rename_i hle
    obtain ⟨c,hc,hx⟩ := Option.map_eq_some_iff.mp h
    cases hr : room c with
    | false =>
      rw [if_neg (by simp [hr])] at hx
      exact .inl ⟨hx.symm,hle,c,hc,hr⟩
    | true =>
      rw [if_pos hr] at hx
      exact .inr ⟨_,hx.symm,.grown hle hc hr⟩
  · rename_i hlt
    cases h
    exact .inr ⟨r,rfl,.same (Nat.lt_of_not_le hlt)⟩

theorem tmpfsResourceWrite_cases {buf : Str} {offset : Nat} {x : Int}
    (h : tmpfsResourceWrite room r buf offset=some (x,r')) :
    (x=-1 ∧ r'=r ∧ r.Starved room (add64 offset buf.length)) ∨
      (x=buf.length ∧ ∃ r₁, r.Sized room (add64 offset buf.length) r₁ ∧
        offset+buf.length ≤ r₁.capacity ∧ r'={ r₁ with
          stSize := if offT r₁.stSize ≤ offT (add64 offset buf.length) then add64 offset buf.length
            else r₁.stSize
          data := overlay r₁.data offset buf }) := by
  obtain ⟨grown,hgrown,h⟩ := Option.bind_eq_some_iff.mp h
  rcases reserve_cases hgrown with ⟨rfl,hno⟩ | ⟨r₁,rfl,hsized⟩
  · cases h
    exact .inl ⟨rfl,rfl,hno⟩
  · dsimp only at h
    split at h
    · rename_i hfit
      cases h
      exact .inr ⟨rfl,r₁,hsized,hfit,rfl⟩
    · cases h

theorem tmpfsTruncate_cases {length : Nat} (h : tmpfsTruncate room r length=some (ok,r')) :
    (ok=false ∧ r'=r ∧ 0 < length ∧ r.Starved room (length-1)) ∨
      (ok=true ∧ ∃ r₁, (length=0 ∧ r₁=r ∨ 0 < length ∧ r.Sized room (length-1) r₁) ∧
        r'={ r₁ with stSize := length }) := by
  rw [tmpfsTruncate] at h
  obtain ⟨grown,hgrown,h⟩ := Option.map_eq_some_iff.mp h
  rcases Nat.eq_zero_or_pos length with rfl | hpos
  · rw [if_neg (Nat.not_lt_zero _)] at hgrown
    cases hgrown
    cases h
    exact .inr ⟨rfl,r,.inl ⟨rfl,rfl⟩,rfl⟩
  · rw [truncateCapacity_eq hpos] at hgrown
    have hgrown' : (if r.capacity ≤ length-1 then (growCapacity (length-1) 65 r.capacity).map
        (fun c => if room c then some (r.realloc c) else none) else some (some r))=some grown := by
      rw [← hgrown]
      exact if_congr (by omega) rfl rfl
    rcases reserve_cases hgrown' with ⟨rfl,hno⟩ | ⟨r₁,rfl,hsized⟩
    · cases h
      exact .inl ⟨rfl,rfl,hpos,hno⟩
    · cases h
      exact .inr ⟨rfl,r₁,.inr ⟨hpos,hsized⟩,rfl⟩

theorem Resource.Sized.lt (h : r.Sized room stop r₁) :
    stop < r₁.capacity ∧ r.capacity ≤ r₁.capacity := by
  cases h with
  | same hlt => exact ⟨hlt,le_rfl⟩
  | grown hle hc hroom =>
    have hlt := growCapacity_lt hc
    exact ⟨hlt,hle.trans (Nat.le_of_lt hlt)⟩

theorem Resource.Sized.stMode (h : r.Sized room stop r₁) : r₁.stMode=r.stMode := by
  cases h <;> rfl

theorem tmpfsCall_stMode (h : tmpfsCall r c=some (ok,r')) : r'.stMode=r.stMode := by
  cases c with
  | write room buf offset =>
    obtain ⟨⟨x,r''⟩,hw,he⟩ := Option.map_eq_some_iff.mp h
    cases he
    exact tmpfsResourceWrite_stMode hw
  | truncate room length =>
    rcases tmpfsTruncate_cases h with ⟨-,rfl,-,-⟩ | ⟨-,r₁,⟨-,rfl⟩ | ⟨-,hsized⟩,rfl⟩
    · rfl
    · rfl
    · exact hsized.stMode

end Cases

/-- The capacity of a file that the tmpfs has made, and written and truncated:
a regular file has 4096 times a power of two, anything else has none. -/
structure Resource.Doubled (r : Resource) : Prop where
  regular : sIsreg r.stMode=true → ∃ k, k ≤ 51 ∧ r.capacity=4096*2^k
  other : sIsreg r.stMode=false → r.capacity=0

theorem pages_pow (k : Nat) : 4096*2^k=2^(12+k) := (Nat.pow_add 2 12 k).symm

theorem createTmpfsResource_doubled (mode : Nat) : (createTmpfsResource mode).Doubled := by
  refine ⟨?_,?_⟩
  · intro h
    rw [createTmpfsResource_stMode] at h
    exact ⟨0,by omega,by rw [createTmpfsResource,if_pos h]; rfl⟩
  · intro h
    rw [createTmpfsResource_stMode] at h
    rw [createTmpfsResource,if_neg (by simp [h])]

theorem Resource.Doubled.sized {room : Nat → Bool} (hr : r.Doubled) (h : r.Sized room stop r₁) :
    r₁.Doubled := by
  cases h with
  | same => exact hr
  | grown hle hc hroom =>
    refine ⟨?_,?_⟩
    · intro hreg
      obtain ⟨k,hk,hcap⟩ := hr.regular hreg
      rw [hcap,pages_pow] at hc
      obtain ⟨b,hkb,hb,rfl⟩ := growCapacity_pow (by omega) hc
      refine ⟨b-12,by omega,?_⟩
      rw [pages_pow]
      show 2^b=2^(12+(b-12))
      congr 1
      omega
    · intro hreg
      rw [hr.other hreg,growCapacity_zero] at hc
      cases hc

theorem Resource.Doubled.of_eq (hr : r.Doubled) (hmode : r'.stMode=r.stMode)
    (hcap : r'.capacity=r.capacity) : r'.Doubled := by
  refine ⟨?_,?_⟩
  · rw [hmode,hcap]
    exact hr.regular
  · rw [hmode,hcap]
    exact hr.other

theorem Resource.Doubled.call {c : TmpfsCall} {ok : Bool} (hr : r.Doubled)
    (h : tmpfsCall r c=some (ok,r')) : r'.Doubled := by
  cases c with
  | write room buf offset =>
    obtain ⟨⟨x,r''⟩,hw,he⟩ := Option.map_eq_some_iff.mp h
    cases he
    rcases tmpfsResourceWrite_cases hw with ⟨-,rfl,-⟩ | ⟨-,r₁,hsized,-,rfl⟩
    · exact hr
    · exact (hr.sized hsized).of_eq rfl rfl
  | truncate room length =>
    rcases tmpfsTruncate_cases h with ⟨-,rfl,-,-⟩ | ⟨-,r₁,⟨-,rfl⟩ | ⟨-,hsized⟩,rfl⟩
    · exact hr
    · exact hr.of_eq rfl rfl
    · exact (hr.sized hsized).of_eq rfl rfl

/-- Whatever was written and truncated before, the loop of a write ends exactly if
the file is regular and the write ends below 2^63, that of a truncate if in
addition to that 2^63 itself is allowed, or if it does nothing. -/
theorem tmpfs_loops_end_iff (mode : Nat) (calls : List TmpfsCall) (oks : List Bool) (r : Resource)
    (hrun : trace tmpfsCall (createTmpfsResource mode) calls=some (oks,r))
    (offset count length : Nat) :
    ((∃ n c, growCapacity (add64 offset count) n r.capacity=some c) ↔
      sIsreg mode=true ∧ add64 offset count < 2^63) ∧
    ((∃ n c, truncateCapacity length n r.capacity=some c) ↔
      length=0 ∨ sIsreg mode=true ∧ length ≤ 2^63) := by
  obtain ⟨hr,hmode⟩ : r.Doubled ∧ r.stMode=mode := by
    refine trace_invariant (P := fun r => r.Doubled ∧ r.stMode=mode) ?_
      ⟨createTmpfsResource_doubled mode,createTmpfsResource_stMode mode⟩
      (show ∀ c∈calls, (fun _ => True) c from fun _ _ => trivial) hrun
    intro s l o s' hs _ h
    exact ⟨hs.1.call h,(tmpfsCall_stMode h).trans hs.2⟩
  rw [← hmode]
  cases hreg : sIsreg r.stMode with
  | false =>
    rw [hr.other hreg]
    refine ⟨?_,?_⟩
    · simp [growCapacity_zero]
    · rcases Nat.eq_zero_or_pos length with rfl | hpos
      · simp only [true_or,iff_true]
        exact ⟨1,0,rfl⟩
      · have hne : length≠0 := by omega
        simp [truncateCapacity_eq hpos,growCapacity_zero,hne]
  | true =>
    obtain ⟨k,hk,hcap⟩ := hr.regular hreg
    rw [hcap,pages_pow]
    refine ⟨?_,?_⟩
    · rw [growCapacity_pow_ends_iff (by omega),eq_self_iff_true,true_and]
    · rcases Nat.eq_zero_or_pos length with rfl | hpos
      · simp only [true_or,iff_true]
        exact ⟨1,_,if_neg (Nat.not_lt_zero _)⟩
      · simp only [truncateCapacity_eq hpos]
        rw [growCapacity_pow_ends_iff (by omega),true_and]
        omega

/-- In a new regular file a write of 5000 bytes finds its capacity. -/
theorem tmpfs_loops_end_iff_regular :
    ∃ n c, growCapacity (add64 0 5000) n (createTmpfsResource 0o100644).capacity=some c :=
  (tmpfs_loops_end_iff 0o100644 [] [] _ rfl 0 5000 0).1.mpr ⟨by decide,by decide⟩

/-- A directory has no buffer: a write of one byte doubles 0 for ever. -/
theorem tmpfs_write_directory_hangs : (createTmpfsResource (0o755 ||| sIfdir)).capacity=0 ∧
    ¬∃ n c, growCapacity (add64 0 1) n (createTmpfsResource (0o755 ||| sIfdir)).capacity=some c := by
  refine ⟨rfl,?_⟩
  rintro ⟨n,c,h⟩
  rw [show (createTmpfsResource (0o755 ||| sIfdir)).capacity=0 from rfl,growCapacity_zero] at h
  cases h

/-- What is recorded of a file: the byte that was last written to each place, and
whether it was written since the file was last cut before it. -/
structure History where
  last : Nat → BitVec 8
  written : Nat → Bool

namespace History

def new : History := ⟨fun _ => 0,fun _ => false⟩

def record (h : History) (c : TmpfsCall) (ok : Bool) : History :=
  if ok then
    match c with
    | .write _ buf offset => ⟨overlay h.last offset buf,
        fun i => h.written i || decide (offset ≤ i ∧ i < offset+buf.length)⟩
    | .truncate _ length => ⟨h.last,fun i => h.written i && decide (i < length)⟩
  else h

def ofCalls (calls : List TmpfsCall) (oks : List Bool) : History :=
  (calls.zip oks).foldl (fun h x => h.record x.1 x.2) .new

end History

def TmpfsCall.room : TmpfsCall → Nat → Bool
  | .write room _ _ => room
  | .truncate room _ => room

/-- The buffer holds the last bytes, whether they are still part of the file or not. -/
structure Resource.Keeps (r : Resource) (h : History) : Prop where
  size : r.stSize ≤ r.capacity
  capacity : r.capacity < 2^63
  bytes : ∀ i < r.capacity, r.data i=h.last i
  past : ∀ i, r.capacity ≤ i → h.last i=0

theorem createTmpfsResource_keeps {mode : Nat} (h : sIsreg mode=true) :
    (createTmpfsResource mode).Keeps .new := by
  rw [createTmpfsResource,if_pos h]
  exact ⟨Nat.zero_le _,show 4096 < 2^63 by decide,fun _ _ => rfl,fun _ _ => rfl⟩

section Keeps

variable {room : Nat → Bool} {h : History}

theorem Resource.Keeps.sized (hr : r.Keeps h) (hroom : ∀ n, room n=true → n < 2^63)
    (hs : r.Sized room stop r₁) : r₁.Keeps h := by
  obtain ⟨-,hle⟩ := hs.lt
  cases hs with
  | same => exact hr
  | @grown c _ _ hfound =>
    refine ⟨hr.size.trans hle,hroom c hfound,?_,fun i hi => hr.past i (hle.trans hi)⟩
    intro i _
    show (if i < r.capacity then r.data i else 0)=h.last i
    split
    · exact hr.bytes i ‹_›
    · exact (hr.past i (by omega)).symm

theorem Resource.Keeps.store (hr : r.Keeps h) {buf : Str} {offset : Nat}
    (hfit : offset+buf.length ≤ r.capacity) (written : Nat → Bool) :
    Resource.Keeps { r with
      stSize := if offT r.stSize ≤ offT (add64 offset buf.length) then add64 offset buf.length
        else r.stSize
      data := overlay r.data offset buf } ⟨overlay h.last offset buf,written⟩ := by
  have hcap := hr.capacity
  refine ⟨?_,hcap,?_,?_⟩
  · rw [add64_eq (by omega)]
    dsimp only
    split
    · exact hfit
    · exact hr.size
  · intro i hi
    show overlay r.data offset buf i=overlay h.last offset buf i
    rw [overlay,overlay,hr.bytes i hi]
  · intro i hi
    show overlay h.last offset buf i=0
    rw [overlay_of_ge (hfit.trans hi),hr.past i hi]

theorem Resource.Keeps.call {c : TmpfsCall} {ok : Bool} (hr : r.Keeps h)
    (hroom : ∀ n, c.room n=true → n < 2^63) (hc : tmpfsCall r c=some (ok,r')) :
    r'.Keeps (h.record c ok) := by
  cases c with
  | write room buf offset =>
    obtain ⟨⟨x,r''⟩,hw,he⟩ := Option.map_eq_some_iff.mp hc
    cases he
    rcases tmpfsResourceWrite_cases hw with ⟨rfl,rfl,-⟩ | ⟨rfl,r₁,hsized,hfit,rfl⟩
    · exact hr
    · have hok : decide ((buf.length : Int)≠-1)=true := decide_eq_true (by omega)
      rw [hok,History.record,if_pos rfl]
      exact (hr.sized hroom hsized).store hfit _
  | truncate room length =>
    rcases tmpfsTruncate_cases hc with ⟨rfl,rfl,-,-⟩ | ⟨rfl,r₁,⟨rfl,rfl⟩ | ⟨hpos,hsized⟩,rfl⟩
    · exact hr
    · exact ⟨Nat.zero_le _,hr.capacity,hr.bytes,hr.past⟩
    · have h₁ := hr.sized hroom hsized
      have hlt := hsized.lt.1
      exact ⟨show length ≤ r₁.capacity by omega,h₁.capacity,h₁.bytes,h₁.past⟩

theorem Resource.Keeps.read (hr : r.Keeps h) {i : Nat} (hi : i < r.stSize) :
    tmpfsResourceRead r i 1=some (1,[h.last i]) := by
  have hsize := hr.size
  have hcap := hr.capacity
  have hactual : (if offT r.stSize ≤ offT (add64 i 1) then sub64 1 (sub64 (add64 i 1) r.stSize)
      else 1)=1 := by
    rw [add64_eq (by omega),offT_eq (by omega),offT_eq (by omega)]
    split
    · have hover := sub64_eq (show i+1 < 2^64 by omega) (show r.stSize ≤ i+1 by omega)
      rw [hover,sub64_eq (by omega) (by omega)]
      omega
    · rfl
  rw [tmpfsResourceRead,hactual,if_pos (by omega),← hr.bytes i (by omega)]
  rfl

end Keeps

/-- After any writes and truncates the bytes that were not written since they were
last cut off read as zero exactly if the last that was ever written there is zero. -/
theorem tmpfs_cut_reads_zero_iff (mode : Nat) (hmode : sIsreg mode=true) (calls : List TmpfsCall)
    (hroom : ∀ c∈calls, ∀ n, c.room n=true → n < 2^63) (oks : List Bool) (r : Resource)
    (hrun : trace tmpfsCall (createTmpfsResource mode) calls=some (oks,r)) :
    (∀ i < r.stSize, (History.ofCalls calls oks).written i=false →
        tmpfsResourceRead r i 1=some (1,[0])) ↔
      ∀ i < r.stSize, (History.ofCalls calls oks).written i=false →
        (History.ofCalls calls oks).last i=0 := by
  have hr : r.Keeps (History.ofCalls calls oks) :=
    trace_record (fun s a l o s' hs hl h => hs.call hl h) (createTmpfsResource_keeps hmode) hroom hrun
  refine forall_congr' (fun i => forall_congr' (fun hi => forall_congr' (fun _ => ?_)))
  rw [hr.read hi]
  simp

def ampleRoom (n : Nat) : Bool := decide (n < 2^63)

theorem lt_of_ampleRoom {n : Nat} (h : ampleRoom n=true) : n < 2^63 := of_decide_eq_true h

/-- A one and a zero are written, the zero is cut off, and the file extended into a larger buffer. -/
theorem tmpfs_cut_reads_zero_iff_extended : ∃ r,
    trace tmpfsCall (createTmpfsResource 0o100644)
      [.write ampleRoom [1,0] 0,.truncate ampleRoom 1,.truncate ampleRoom 5000]=
        some ([true,true,true],r) ∧ r.stSize=5000 ∧
    tmpfsResourceRead r 1 1=some (1,[0]) ∧ tmpfsResourceRead r 4999 1=some (1,[0]) := by
  have hrun : ∃ r, trace tmpfsCall (createTmpfsResource 0o100644)
      [.write ampleRoom [1,0] 0,.truncate ampleRoom 1,.truncate ampleRoom 5000]=
        some ([true,true,true],r) ∧ r.stSize=5000 :=
    ⟨_,rfl,rfl⟩
  obtain ⟨r,hr,hsize⟩ := hrun
  have hiff := tmpfs_cut_reads_zero_iff 0o100644 (by decide) _ ?_ _ r hr
  · have hzero := hiff.mpr (by
      intro i _ hi
      match i with
      | 0 => cases hi
      | 1 => rfl
      | i+2 =>
        show overlay (fun _ => 0) 0 [1,0] (i+2)=(0 : BitVec 8)
        exact overlay_of_ge (by simp))
    exact ⟨r,hr,hsize,hzero 1 (by omega) (by decide),hzero 4999 (by omega) (by decide)⟩
  · intro c hc n hn
    simp only [List.mem_cons,List.not_mem_nil,or_false] at hc
    rcases hc with rfl | rfl | rfl <;> exact lt_of_ampleRoom hn

/-- A byte is written, the file cut to nothing and extended again: the byte is back. -/
theorem tmpfs_cut_comes_back : ∃ r,
    trace tmpfsCall (createTmpfsResource 0o100644)
      [.write ampleRoom [1] 0,.truncate ampleRoom 0,.truncate ampleRoom 1]=some ([true,true,true],r) ∧
    (History.ofCalls [.write ampleRoom [1] 0,.truncate ampleRoom 0,.truncate ampleRoom 1]
      [true,true,true]).written 0=false ∧ r.stSize=1 ∧ tmpfsResourceRead r 0 1=some (1,[1]) :=
  ⟨_,rfl,rfl,rfl,rfl⟩

end X64OS.Fs
