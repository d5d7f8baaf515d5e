import X64OS.Fs.VfsTree
import X64OS.Memory.Libc

namespace X64OS.Fs

open Framework

def Tar.mode : Nat := 100

def Tar.size : Nat := 124

def Tar.type : Nat := 156

def Tar.magic : Nat := 257

/-- A string of C; it ends at the first zero, if that is among the next n bytes. -/
def cString (mem : Mem) : Nat → Nat → Option Str
  | 0,_ => none
  | n+1,a => if mem a=0 then some [] else (cString mem n (a+1)).map (fun s => mem a::s)

/-- The loop of oct2int; a char is signed. -/
def oct2intFrom (mem : Mem) : Nat → Nat → BitVec 64 → BitVec 64
  | 0,_,value => value
  | len+1,a,value =>
    if mem a=0 then value
    else oct2intFrom mem len (a+1) (value*8+((mem a).signExtend 64-0x30#64))

def oct2int (mem : Mem) (a len : Nat) : BitVec 64 := oct2intFrom mem len a 0

def Vfs.writeNode (s : Vfs) (room : Nat → Bool) (i : Nat) (buf : Str) (offset : Nat) : Option Vfs :=
  (s.nodes[i]?).bind (fun node =>
    node.resource.bind (fun r =>
      (tmpfsResourceWrite room r buf offset).map (fun x =>
        s.setNode i { node with resource := some x.2 })))

/-- The variables of unpack_addr, with the memory and the file tree. -/
structure Unpacking where
  mem : Mem
  vfs : Vfs
  currentFile : Nat
  tarSize : BitVec 64
  nameOverride : Option Nat

namespace Unpacking

/-- The switch over the type of a member; a create that fails is a panic. -/
def unpackType (u : Unpacking) (room : Nat → Bool) (name : Str) (mode size : BitVec 64) :
    Option Unpacking :=
  if u.mem (u.currentFile+Tar.type)=0x30#8 then
    (u.vfs.create (some u.vfs.vfsRoot) name ((mode.toNat ||| sIfreg)%2^32)).bind (fun x =>
      x.1.bind (fun node =>
        (x.2.writeNode room node (window u.mem (u.currentFile+512) size.toNat) 0).map (fun vfs =>
          { u with vfs := vfs })))
  else if u.mem (u.currentFile+Tar.type)=0x35#8 then
    (u.vfs.create (some u.vfs.vfsRoot) name ((mode.toNat ||| sIfdir)%2^32)).bind (fun x =>
      x.1.map (fun _ => { u with vfs := x.2 }))
  else if u.mem (u.currentFile+Tar.type)=0x4c#8 then
    -- 512 words of 8 bytes behind the header
    some { u with
      nameOverride := some (u.currentFile+4096)
      mem := Function.update u.mem (u.currentFile+4096+size.toNat) 0 }
  else some u

/-- One round of the loop; the name "./" leads to the same round again. -/
def unpackMember (u : Unpacking) (room : Nat → Bool) (fuel : Nat) : Option Unpacking :=
  (cString u.mem fuel (u.nameOverride.getD u.currentFile)).bind (fun name =>
    let u := { u with nameOverride := none }
    if name=str "./" then some u
    else
      let mode := oct2int u.mem (u.currentFile+Tar.mode) 8
      let size := oct2int u.mem (u.currentFile+Tar.size) 12
      (u.unpackType room name mode size).map (fun u =>
        { u with
          tarSize := u.tarSize+size
          currentFile := u.currentFile+512+Memory.alignUp size.toNat 512 }))

def unpackLoop (room : Nat → Bool) (fuel : Nat) : Nat → Unpacking → Option Unpacking
  | 0,_ => none
  | n+1,u =>
    if window u.mem (u.currentFile+Tar.magic) 5=str "ustar" then
      (u.unpackMember room fuel).bind (unpackLoop room fuel n)
    else some u

end Unpacking

/-- unpack_addr with at most so many rounds of each loop: the file tree, and the
number of pages that it frees from file_addr on. -/
def unpackAddr (room : Nat → Bool) (fuel : Nat) (mem : Mem) (fileAddr : Nat) (s : Vfs) :
    Option (Vfs × Nat) :=
  (Unpacking.unpackLoop room fuel fuel ⟨mem,s,fileAddr,0,none⟩).map (fun u =>
    (u.vfs,u.tarSize.toNat/4096))

def StrAt (mem : Mem) : Nat → Str → Prop
  | a,[] => mem a=0
  | a,c::cs => c≠0 ∧ mem a=c ∧ StrAt mem (a+1) cs

instance StrAt.decidable (mem : Mem) : (a : Nat) → (s : Str) → Decidable (StrAt mem a s)
  | a,[] => inferInstanceAs (Decidable (mem a=0))
  | a,c::cs =>
    have := StrAt.decidable mem (a+1) cs
    inferInstanceAs (Decidable (c≠0 ∧ mem a=c ∧ StrAt mem (a+1) cs))

variable {a : Nat} {mem : Mem}

theorem strAt_iff {s : Str} :
    StrAt mem a s ↔ window mem a s.length=s ∧ 0∉s ∧ mem (a+s.length)=0 := by
  induction s generalizing a with
  | nil => simp [StrAt,window]
  | cons c cs ih =>
    rw [StrAt,ih,List.length_cons,window_succ,List.cons.injEq,List.mem_cons,not_or,
      Nat.add_right_comm,← Nat.add_assoc]
    constructor
    · rintro ⟨hc,hmem,hwindow,hzero,hend⟩
      exact ⟨⟨hmem,hwindow⟩,⟨Ne.symm hc,hzero⟩,hend⟩
    · rintro ⟨⟨hmem,hwindow⟩,⟨hc,hzero⟩,hend⟩
      exact ⟨Ne.symm hc,hmem,hwindow,hzero,hend⟩

theorem StrAt.cString {n : Nat} {s : Str} (h : StrAt mem a s) (hn : s.length < n) :
    cString mem n a=some s := by
  induction s generalizing a n with
  | nil =>
    obtain ⟨m,rfl⟩ : ∃ m, n=m+1 := ⟨n-1,by simp at hn; omega⟩
    exact if_pos h
  | cons c cs ih =>
    obtain ⟨m,rfl⟩ : ∃ m, n=m+1 := ⟨n-1,by simp at hn; omega⟩
    obtain ⟨hc,hmem,hrest⟩ := h
    rw [Fs.cString,hmem,if_neg hc,ih hrest (by simpa using hn)]
    rfl

def octalValue (ds : Str) : Nat := ds.foldl (fun v d => v*8+(d.toNat-48)) 0

def OctalAt (mem : Mem) (a len value : Nat) : Prop :=
  ∃ ds, StrAt mem a ds ∧ ds.length < len ∧ (∀ d∈ds, 48 ≤ d.toNat ∧ d.toNat < 56) ∧
    octalValue ds=value

theorem octal_digit {d : BitVec 8} (h : 48 ≤ d.toNat ∧ d.toNat < 56) :
    d.signExtend 64-0x30#64=BitVec.ofNat 64 (d.toNat-48) := by
  have hmsb : d.msb=false := by
    rw [BitVec.msb_eq_false_iff_two_mul_lt]
    omega
  rw [BitVec.signExtend_eq_setWidth_of_msb_false hmsb]
  apply BitVec.eq_of_toNat_eq
  rw [BitVec.toNat_sub,BitVec.toNat_setWidth,BitVec.toNat_ofNat,BitVec.toNat_ofNat]
  omega

theorem oct2intFrom_eq {len : Nat} {ds : Str} (h : StrAt mem a ds) (hlen : ds.length < len)
    (hds : ∀ d∈ds, 48 ≤ d.toNat ∧ d.toNat < 56) (v : Nat) :
    oct2intFrom mem len a (BitVec.ofNat 64 v)=
      BitVec.ofNat 64 (ds.foldl (fun v d => v*8+(d.toNat-48)) v) := by
  induction ds generalizing a len v with
  | nil =>
    obtain ⟨m,rfl⟩ : ∃ m, len=m+1 := ⟨len-1,by simp at hlen; omega⟩
    exact if_pos h
  | cons d ds ih =>
    obtain ⟨m,rfl⟩ : ∃ m, len=m+1 := ⟨len-1,by simp at hlen; omega⟩
    obtain ⟨hd,hmem,hrest⟩ := h
    have hstep : BitVec.ofNat 64 v*8+((mem a).signExtend 64-0x30#64)=
        BitVec.ofNat 64 (v*8+(d.toNat-48)) := by
      rw [hmem,octal_digit (hds d List.mem_cons_self),BitVec.ofNat_add,BitVec.ofNat_mul]
      rfl
    rw [oct2intFrom,if_neg (by rwa [hmem]),hstep,List.foldl_cons]
    exact ih hrest (by simpa using hlen) (fun x hx => hds x (List.mem_cons_of_mem _ hx)) _

theorem octal_lt {ds : Str} (hds : ∀ d∈ds, 48 ≤ d.toNat ∧ d.toNat < 56) (v : Nat) :
    ds.foldl (fun v d => v*8+(d.toNat-48)) v < (v+1)*8^ds.length := by
  induction ds generalizing v with
  | nil => simp
  | cons d ds ih =>
    have hd := hds d List.mem_cons_self
    have h := ih (fun x hx => hds x (List.mem_cons_of_mem _ hx)) (v*8+(d.toNat-48))
    rw [List.foldl_cons,List.length_cons,Nat.pow_succ']
    calc _ < (v*8+(d.toNat-48)+1)*8^ds.length := h
      _ ≤ (v+1)*8*8^ds.length := Nat.mul_le_mul_right _ (by omega)
      _ = (v+1)*(8*8^ds.length) := Nat.mul_assoc _ _ _

/-- oct2int gives the number in the field. -/
theorem OctalAt.oct2int {len value : Nat} (h : OctalAt mem a len value) (hlen : len ≤ 12) :
    (Fs.oct2int mem a len).toNat=value ∧ value < 8^(len-1) := by
  obtain ⟨ds,hstr,hds,hdigits,rfl⟩ := h
  have hlt : octalValue ds < 8^(len-1) := by
    have h := octal_lt hdigits 0
    have hpow : 8^ds.length ≤ 8^(len-1) := Nat.pow_le_pow_right (by decide) (by omega)
    rw [octalValue]
    omega
  have hmax : 8^(len-1) ≤ 8^11 := Nat.pow_le_pow_right (by decide) (by omega)
  have hwrap : (8 : Nat)^11 < 2^64 := by decide
  refine ⟨?_,hlt⟩
  have h := oct2intFrom_eq hstr hds hdigits 0
  rw [Fs.oct2int,show (0 : BitVec 64)=BitVec.ofNat 64 0 from rfl,h,BitVec.toNat_ofNat]
  exact Nat.mod_eq_of_lt (Nat.lt_trans hlt (Nat.lt_of_le_of_lt hmax hwrap))

end X64OS.Fs
