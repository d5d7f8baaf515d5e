import X64OS.Fs.TmpfsTruncate

namespace X64OS.Fs

open Framework
open Option (bind_some map_some)

/-- A file and the size of the block that its data points to. -/
structure TmpfsBuffer where
  file : Resource
  block : Nat

namespace TmpfsBuffer

def move (b : TmpfsBuffer) (kept capacity : Nat) : TmpfsBuffer :=
  ⟨{ b.file with capacity := capacity, data := fun i => if i < kept then b.file.data i else 0 },capacity⟩

/-- tmpfs_resource_write; there is no result if memcpy leaves the block. -/
def write (room : Nat → Bool) (b : TmpfsBuffer) (buf : Str) (offset : Nat) :
    Option (Bool × TmpfsBuffer) :=
  let stop := add64 offset buf.length
  (if b.file.capacity ≤ stop then
    (growCapacity stop 65 b.file.capacity).map (fun c =>
      -- realloc keeps the whole block
      if room c then some (b.move b.block c) else none)
  else some (some b)).bind (fun x =>
    match x with
    | none => some (false,b)
    | some b =>
      if offset+buf.length ≤ b.block then
        let stSize := if offT b.file.stSize ≤ offT stop then stop else b.file.stSize
        some (true,⟨{ b.file with stSize := stSize, data := overlay b.file.data offset buf },b.block⟩)
      else none)

/-- tmpfs_truncate; memcpy takes capacity bytes from the old block to the new one. -/
def truncate (room : Nat → Bool) (b : TmpfsBuffer) (length : Nat) : Option (Bool × TmpfsBuffer) :=
  (if b.file.capacity < length then
    (truncateCapacity length 65 b.file.capacity).bind (fun c =>
      if room c then
        if b.file.capacity ≤ b.block ∧ b.file.capacity ≤ c then
          some (some (b.move b.file.capacity c))
        else none
      else some none)
  else some (some b)).map (fun x =>
    match x with
    | none => (false,b)
    | some b => (true,⟨{ b.file with stSize := length },b.block⟩))

def call (b : TmpfsBuffer) : TmpfsCall → Option (Bool × TmpfsBuffer)
  | .write room buf offset => b.write room buf offset
  | .truncate room length => b.truncate room length

def new (mode : Nat) : TmpfsBuffer := ⟨createTmpfsResource mode,if sIsreg mode then 4096 else 0⟩

end TmpfsBuffer

def Resource.buffer (r : Resource) : TmpfsBuffer := ⟨r,r.capacity⟩

def TmpfsCall.Small : TmpfsCall → Prop
  | .write _ buf offset => offset+buf.length < 2^62
  | .truncate _ length => length < 2^62

def TmpfsCall.Starved (r : Resource) : TmpfsCall → Prop
  | .write room buf offset => r.Starved room (add64 offset buf.length)
  | .truncate room length => 0 < length ∧ r.Starved room (length-1)

/-- A regular file that was written and truncated with small numbers. -/
structure Resource.Sound (r : Resource) : Prop where
  doubled : r.Doubled
  regular : sIsreg r.stMode=true
  size : r.stSize ≤ r.capacity
  small : r.stSize < 2^62

section Sound

variable {room : Nat → Bool} {r r' : Resource} {stop : Nat} {c : TmpfsCall} {ok : Bool}

theorem Resource.Sound.call (hr : r.Sound) (hc : c.Small) (h : tmpfsCall r c=some (ok,r')) :
    r'.Sound := by
  have hreg : sIsreg r'.stMode=true := by
    rw [tmpfsCall_stMode h]
    exact hr.regular
  have hsize := hr.size
  have hsmall := hr.small
  obtain ⟨hle,hlt⟩ : r'.stSize ≤ r'.capacity ∧ r'.stSize < 2^62 := by
    cases c with
    | write room buf offset =>
      have hend : offset+buf.length < 2^62 := hc
      have hadd := add64_eq (show offset+buf.length < 2^64 by omega)
      obtain ⟨⟨x,r''⟩,hw,he⟩ := Option.map_eq_some_iff.mp h
      cases he
      rcases tmpfsResourceWrite_cases hw with ⟨-,rfl,-⟩ | ⟨-,r₁,hsized,-,rfl⟩
      · exact ⟨hsize,hsmall⟩
      · obtain ⟨hlt,hle⟩ := hsized.lt
        have hst : r₁.stSize=r.stSize := by cases hsized <;> rfl
        dsimp only
        split <;> omega
    | truncate room length =>
      have hend : length < 2^62 := hc
      rcases tmpfsTruncate_cases h with ⟨-,rfl,-,-⟩ | ⟨-,r₁,⟨rfl,rfl⟩ | ⟨hpos,hsized⟩,rfl⟩
      · exact ⟨hsize,hsmall⟩
      · exact ⟨Nat.zero_le _,hend⟩
      · have hlt := hsized.lt.1
        exact ⟨show length ≤ r₁.capacity by omega,hend⟩
  exact ⟨hr.doubled.call h,hreg,hle,hlt⟩

end Sound

end X64OS.Fs
