import X64OS.Fs.InitrdUnpack
import X64OS.Fs.TmpfsTruncate

namespace X64OS.Fs

open Framework Function
open Option (map_eq_some_iff bind_eq_some_iff bind_some map_some)

section Strings

variable {mem : Mem} {a b fuel : Nat} {s s' : Str}

theorem strAt_of_cString (h : cString mem fuel a=some s) : StrAt mem a s := by
  induction fuel generalizing a s with
  | zero => cases h
  | succ fuel ih =>
    unfold cString at h
    split at h
    · rename_i hzero
      cases h
      exact hzero
    · rename_i hc
      obtain ⟨cs,hcs,rfl⟩ := map_eq_some_iff.mp h
      exact ⟨hc,rfl,ih hcs⟩

theorem StrAt.unique (h : StrAt mem a s) (h' : StrAt mem a s') : s=s' := by
  have hs : Fs.cString mem (max s.length s'.length+1) a=some s := h.cString (by omega)
  have hs' : Fs.cString mem (max s.length s'.length+1) a=some s' := h'.cString (by omega)
  exact Option.some.inj (hs.symm.trans hs')

end Strings

namespace Unpacking

variable {u v : Unpacking} {room : Nat → Bool} {fuel : Nat} {name : Str}

section
variable (u : Unpacking)

def memberName (fuel : Nat) : Option Str :=
  cString u.mem fuel (u.nameOverride.getD u.currentFile)

def memberSize : Nat := (oct2int u.mem (u.currentFile+Tar.size) 12).toNat

def memberMode : Nat := (oct2int u.mem (u.currentFile+Tar.mode) 8).toNat

def memberType : BitVec 8 := u.mem (u.currentFile+Tar.type)

def AtHeader : Prop := window u.mem (u.currentFile+Tar.magic) 5=str "ustar"

def Named (name : Str) : Prop :=
  StrAt u.mem (u.nameOverride.getD u.currentFile) name

end

/-- One iteration of the loop that comes to its end. current_file is a pointer, so its
advance wraps. -/
def Round (room : Nat → Bool) (u v : Unpacking) : Prop :=
  u.AtHeader ∧ ∃ fuel, (u.unpackMember room fuel).map (fun w =>
    { w with currentFile := w.currentFile%2^64 })=some v

def Reached (room : Nat → Bool) : Unpacking → Unpacking → Prop :=
  Relation.ReflTransGen (Round room)

theorem unpackType_cases {mode size : BitVec 64}
    (h : u.unpackType room name mode size=some v) :
    v.currentFile=u.currentFile ∧ v.tarSize=u.tarSize ∧
      (u.mem (u.currentFile+Tar.type)=0x4c#8 ∧ v.nameOverride=some (u.currentFile+4096) ∧
          v.mem=update u.mem (u.currentFile+4096+size.toNat) 0 ∨
        u.mem (u.currentFile+Tar.type)≠0x4c#8 ∧ v.nameOverride=u.nameOverride ∧ v.mem=u.mem) := by
  unfold unpackType at h
  split at h
  · rename_i htype
    obtain ⟨x,-,h⟩ := bind_eq_some_iff.mp h
    obtain ⟨node,-,h⟩ := bind_eq_some_iff.mp h
    obtain ⟨vfs,-,rfl⟩ := map_eq_some_iff.mp h
    exact ⟨rfl,rfl,.inr ⟨by rw [htype]; decide,rfl,rfl⟩⟩
  split at h
  · rename_i htype
    obtain ⟨x,-,h⟩ := bind_eq_some_iff.mp h
    obtain ⟨node,-,rfl⟩ := map_eq_some_iff.mp h
    exact ⟨rfl,rfl,.inr ⟨by rw [htype]; decide,rfl,rfl⟩⟩
  split at h
  · rename_i htype
    cases h
    exact ⟨rfl,rfl,.inl ⟨htype,rfl,rfl⟩⟩
  · rename_i htype
    cases h
    exact ⟨rfl,rfl,.inr ⟨htype,rfl,rfl⟩⟩

theorem unpackMember_cases (h : u.unpackMember room fuel=some v) :
    (u.memberName fuel=some (str "./") ∧ v={ u with nameOverride := none }) ∨
    (∃ name, u.memberName fuel=some name ∧ name≠str "./") ∧
      v.currentFile=u.currentFile+512+Memory.alignUp u.memberSize 512 ∧
      (u.mem (u.currentFile+Tar.type)=0x4c#8 ∧ v.nameOverride=some (u.currentFile+4096) ∧
          v.mem=update u.mem (u.currentFile+4096+u.memberSize) 0 ∨
        u.mem (u.currentFile+Tar.type)≠0x4c#8 ∧ v.nameOverride=none ∧ v.mem=u.mem) := by
  obtain ⟨name,hname,h⟩ := bind_eq_some_iff.mp h
  dsimp only at h
  split at h
  · rename_i hdot
    cases h
    exact .inl ⟨hdot ▸ hname,rfl⟩
  · rename_i hdot
    obtain ⟨w,hw,rfl⟩ := map_eq_some_iff.mp h
    obtain ⟨hfile,-,hcases⟩ := unpackType_cases hw
    exact .inr ⟨⟨name,hname,hdot⟩,by rw [hfile]; rfl,hcases⟩

/-- What a header must say for its iteration to come to an end, and to the next header: a name other
than "./", a size that does not carry the pointer round, for a file or a directory a last component
that fits into a key, and for a file a size below 2^63 and no type bits in the mode. -/
structure Passes (u : Unpacking) (name : Str) : Prop where
  notDot : name≠str "./"
  advance : u.currentFile+512+Memory.alignUp u.memberSize 512 < 2^64
  key : u.memberType=0x30#8 ∨ u.memberType=0x35#8 →
    ∀ base, (components name).getLast?=some base → base.length ≤ hashmapKeyDataMax
  file : u.memberType=0x30#8 → u.memberSize < 2^63 ∧ u.memberMode &&& 0o070000=0

theorem Named.memberName (h : u.Named name) : u.memberName (name.length+1)=some name :=
  StrAt.cString h (Nat.lt_succ_self _)

theorem Round.unique {w : Unpacking} (h : Round room u v) (h' : Round room u w) : v=w := by
  obtain ⟨-,fuel,h⟩ := h
  obtain ⟨-,fuel',h'⟩ := h'
  have hsame : u.unpackMember room fuel=u.unpackMember room fuel' := by
    obtain ⟨x,hx,-⟩ := map_eq_some_iff.mp h
    obtain ⟨y,hy,-⟩ := map_eq_some_iff.mp h'
    obtain ⟨name,hname,-⟩ := bind_eq_some_iff.mp hx
    obtain ⟨name',hname',-⟩ := bind_eq_some_iff.mp hy
    cases (strAt_of_cString hname).unique (strAt_of_cString hname')
    rw [unpackMember,unpackMember,hname,hname']
  rw [hsame] at h
  exact Option.some.inj (h.symm.trans h')

theorem round_cases (h : Round room u v) (hu : u.currentFile < 2^64) :
    (u.Named (str "./") ∧ v={ u with nameOverride := none }) ∨
    (∃ name, u.Named name ∧ name≠str "./") ∧
      v.currentFile=(u.currentFile+512+Memory.alignUp u.memberSize 512)%2^64 ∧
      (v.mem=u.mem ∨ ∃ a, v.mem=update u.mem a 0) := by
  obtain ⟨-,fuel,hround⟩ := h
  obtain ⟨w,hw,rfl⟩ := map_eq_some_iff.mp hround
  rcases unpackMember_cases hw with ⟨hdot,rfl⟩ | ⟨⟨name,hname,hne⟩,hfile,hmem⟩
  · refine .inl ⟨strAt_of_cString hdot,?_⟩
    dsimp only
    rw [Nat.mod_eq_of_lt hu]
  · refine .inr ⟨⟨name,strAt_of_cString hname,hne⟩,by rw [hfile],?_⟩
    rcases hmem with ⟨-,-,hmem⟩ | ⟨-,-,hmem⟩
    · exact .inr ⟨_,hmem⟩
    · exact .inl hmem

/-- An iteration leaves a sound tree. -/
theorem Round.sound (h : Round room u v) (hs : u.vfs.Sound) : v.vfs.Sound := by
  obtain ⟨-,fuel,hround⟩ := h
  obtain ⟨w,hw,rfl⟩ := map_eq_some_iff.mp hround
  obtain ⟨name,-,hw⟩ := bind_eq_some_iff.mp hw
  dsimp only at hw ⊢
  split at hw
  · cases hw
    exact hs
  obtain ⟨x,hx,rfl⟩ := map_eq_some_iff.mp hw
  dsimp only
  unfold unpackType at hx
  split at hx
  · obtain ⟨⟨o,vfs⟩,hcreate,hx⟩ := bind_eq_some_iff.mp hx
    obtain ⟨i,rfl,hx⟩ := bind_eq_some_iff.mp hx
    obtain ⟨vfs',hwrite,rfl⟩ := map_eq_some_iff.mp hx
    obtain ⟨node,hnode,hwrite⟩ := bind_eq_some_iff.mp hwrite
    obtain ⟨r,hr,hwrite⟩ := bind_eq_some_iff.mp hwrite
    obtain ⟨y,hy,rfl⟩ := map_eq_some_iff.mp hwrite
    refine (hs.created hcreate).1.setResource hnode ?_
    rw [VfsNode.mode,hr,map_some,tmpfsResourceWrite_stMode hy]
  split at hx
  · obtain ⟨⟨o,vfs⟩,hcreate,hx⟩ := bind_eq_some_iff.mp hx
    obtain ⟨i,rfl,rfl⟩ := map_eq_some_iff.mp hx
    exact (hs.created hcreate).1
  split at hx
  · cases hx
    exact hs
  · cases hx
    exact hs

theorem magic_update {mem : Mem} {a b : Nat}
    (h : window (update mem b 0) (a+Tar.magic) 5=str "ustar") :
    window mem (a+Tar.magic) 5=str "ustar" := by
  have hne : ∀ i < 5, a+Tar.magic+i≠b := by
    intro i hi hib
    have hzero : (0 : BitVec 8)∈window (update mem b 0) (a+Tar.magic) 5 :=
      List.mem_map.mpr ⟨i,List.mem_range.mpr hi,by rw [hib,update_self]⟩
    rw [h] at hzero
    exact absurd hzero (by decide)
  rw [← h]
  apply window_congr
  intro i hi
  rw [update_of_ne (hne i hi)]

/-- From the end of the image on no block has the magic. -/
def NoMagicFrom (mem : Mem) (fileAddr end' : Nat) : Prop :=
  ∀ a, end' ≤ a → a%512=fileAddr%512 → window mem (a+Tar.magic) 5≠str "ustar"

/-- Behind every address there is a zero, so that strings end. -/
def StringsEnd (mem : Mem) : Prop := ∀ a, ∃ b, a ≤ b ∧ mem b=0

theorem StringsEnd.update {mem : Mem} (h : StringsEnd mem) (c : Nat) :
    StringsEnd (update mem c 0) := by
  intro a
  obtain ⟨b,hab,hb⟩ := h a
  refine ⟨b,hab,?_⟩
  rw [update_apply]
  split
  · rfl
  · exact hb

/-- What the iterations keep. -/
structure InImage (fileAddr end' : Nat) (u : Unpacking) : Prop where
  pointer : u.currentFile < 2^64
  block : u.currentFile%512=fileAddr%512
  noMagic : NoMagicFrom u.mem fileAddr end'
  strings : StringsEnd u.mem
  sound : u.vfs.Sound

variable {end' fileAddr : Nat}

variable (hu : u.InImage fileAddr end')
include hu

theorem InImage.round (h : Round room u v) : v.InImage fileAddr end' := by
  have hsound := h.sound hu.sound
  rcases round_cases h hu.pointer with ⟨-,rfl⟩ | ⟨-,hfile,hmem⟩
  · exact ⟨hu.pointer,hu.block,hu.noMagic,hu.strings,hsound⟩
  · refine ⟨?_,?_,?_,?_,hsound⟩
    · rw [hfile]
      exact Nat.mod_lt _ (by decide)
    · have hblock := hu.block
      have hsize : Memory.alignUp u.memberSize 512%512=0 := by
        rw [Memory.alignUp]
        omega
      rw [hfile]
      omega
    · rcases hmem with hmem | ⟨a,hmem⟩
      · rw [hmem]
        exact hu.noMagic
      · rw [hmem]
        intro b hb hblock hmagic
        exact hu.noMagic b hb hblock (magic_update hmagic)
    · rcases hmem with hmem | ⟨a,hmem⟩
      · rw [hmem]
        exact hu.strings
      · rw [hmem]
        exact hu.strings.update a

theorem InImage.lt (h : u.AtHeader) : u.currentFile < end' := by
  by_contra hge
  exact hu.noMagic u.currentFile (Nat.le_of_not_lt hge) hu.block h

end Unpacking

open Unpacking

variable {type : BitVec 8}

section Names

variable {mem : Mem} {a n fuel : Nat}

def pathOf (mem : Mem) (a n : Nat) : Str := (window mem a n).takeWhile (fun c => c≠0)

theorem cString_cut (h : n < fuel) :
    cString (update mem (a+n) 0) fuel a=some (pathOf mem a n) := by
  induction n generalizing a fuel with
  | zero =>
    cases fuel with
    | zero => cases h
    | succ fuel => simp [cString,pathOf,window]
  | succ n ih =>
    cases fuel with
    | zero => cases h
    | succ fuel =>
      have hbyte : update mem (a+(n+1)) 0 a=mem a :=
        update_of_ne (by omega) _ _
      have hrest := ih (a:=a+1) (Nat.lt_of_succ_lt_succ h)
      rw [Nat.add_assoc,Nat.add_comm 1] at hrest
      have hpath : pathOf mem a (n+1)=if mem a=0 then [] else mem a::pathOf mem (a+1) n := by
        rw [pathOf,window_succ,List.takeWhile_cons]
        by_cases hzero : mem a=0 <;> simp [hzero,pathOf]
      rw [cString,hbyte,hrest,hpath,map_some]
      split <;> rfl

end Names

namespace Unpacking

variable {u v : Unpacking} {room : Nat → Bool} {fuel : Nat}

theorem unpackMember_long {name : Str} (hname : u.memberName fuel=some name) (hne : name≠str "./")
    (htype : u.mem (u.currentFile+Tar.type)=0x4c#8) :
    u.unpackMember room fuel=some ⟨update u.mem (u.currentFile+4096+u.memberSize) 0,u.vfs,
      u.currentFile+512+Memory.alignUp u.memberSize 512,
      u.tarSize+oct2int u.mem (u.currentFile+Tar.size) 12,some (u.currentFile+4096)⟩ := by
  rw [unpackMember,show cString _ _ _=some name from hname,bind_some]
  dsimp only
  rw [if_neg hne,unpackType,if_neg (by rw [htype]; decide),if_neg (by rw [htype]; decide),
    if_pos htype,map_some]
  rfl

theorem unpackMember_creates {name : Str} {kind : Nat} (hname : u.memberName fuel=some name)
    (hne : name≠str "./")
    (htype : u.mem (u.currentFile+Tar.type)=0x30#8 ∧ kind=sIfreg ∨
      u.mem (u.currentFile+Tar.type)=0x35#8 ∧ kind=sIfdir)
    (h : u.unpackMember room fuel=some v) :
    ∃ i s node, u.vfs.create (some u.vfs.vfsRoot) name
        (((oct2int u.mem (u.currentFile+Tar.mode) 8).toNat ||| kind)%2^32)=some (some i,s) ∧
      (v.vfs=s ∨ v.vfs=s.setNode i node) := by
  rw [unpackMember,show cString _ _ _=some name from hname,bind_some] at h
  dsimp only at h
  rw [if_neg hne] at h
  obtain ⟨w,hw,rfl⟩ := map_eq_some_iff.mp h
  rw [unpackType] at hw
  rcases htype with ⟨htype,rfl⟩ | ⟨htype,rfl⟩
  · rw [if_pos htype] at hw
    obtain ⟨⟨x,s⟩,hcreate,hw⟩ := bind_eq_some_iff.mp hw
    obtain ⟨i,rfl,hw⟩ := bind_eq_some_iff.mp hw
    obtain ⟨s',hwrite,rfl⟩ := map_eq_some_iff.mp hw
    obtain ⟨node,-,hwrite⟩ := bind_eq_some_iff.mp hwrite
    obtain ⟨r,-,hwrite⟩ := bind_eq_some_iff.mp hwrite
    obtain ⟨y,-,rfl⟩ := map_eq_some_iff.mp hwrite
    exact ⟨i,s,_,hcreate,.inr rfl⟩
  · rw [if_neg (by rw [htype]; decide),if_pos htype] at hw
    obtain ⟨⟨x,s⟩,hcreate,hw⟩ := bind_eq_some_iff.mp hw
    obtain ⟨i,rfl,rfl⟩ := map_eq_some_iff.mp hw
    exact ⟨i,s,createNode none none [] false,hcreate,.inl rfl⟩

/-- The byte is part of the header or of the data of one of these members, each given by its
place and its size. -/
def Occupied (ms : List (Nat × Nat)) (a : Nat) : Prop := ∃ m∈ms, m.1 ≤ a ∧ a < m.1+512+m.2

end Unpacking

/-- A node is created under the name that was read. A name that fills its field is read as it is
exactly if the mode behind it starts with a zero. A long name is read as it is exactly if the bytes
4096 behind its header hold the same, and leaves the other members as they were exactly if the zero
behind those bytes was there before, or is in none of them. -/
theorem long_names_iff (room : Nat → Bool) (fuel : Nat) (u : Unpacking) :
    (∀ name kind v, u.memberName fuel=some name → name≠str "./" →
      (u.mem (u.currentFile+Tar.type)=0x30#8 ∧ kind=sIfreg ∨
        u.mem (u.currentFile+Tar.type)=0x35#8 ∧ kind=sIfdir) → u.unpackMember room fuel=some v →
      ∃ i s node, u.vfs.create (some u.vfs.vfsRoot) name
          (((oct2int u.mem (u.currentFile+Tar.mode) 8).toNat ||| kind)%2^32)=some (some i,s) ∧
        (v.vfs=s ∨ v.vfs=s.setNode i node)) ∧
    (∀ name : Str, u.nameOverride=none → name.length=100 → 0∉name →
      window u.mem u.currentFile 100=name → 100 < fuel →
      (u.memberName fuel=some name ↔ u.mem (u.currentFile+Tar.mode)=0)) ∧
    ∀ name, u.memberName fuel=some name → name≠str "./" →
      u.mem (u.currentFile+Tar.type)=0x4c#8 → u.memberSize < fuel →
      ∃ v, u.unpackMember room fuel=some v ∧
        (v.memberName fuel=some (pathOf u.mem (u.currentFile+512) u.memberSize) ↔
          pathOf u.mem (u.currentFile+4096) u.memberSize=
            pathOf u.mem (u.currentFile+512) u.memberSize) ∧
        ∀ others, (∀ a, Occupied others a → v.mem a=u.mem a) ↔
          (Occupied others (u.currentFile+4096+u.memberSize) →
            u.mem (u.currentFile+4096+u.memberSize)=0) := by
  refine ⟨fun name kind v => unpackMember_creates,?_,?_⟩
  · intro name hover hlen hzero hname hfuel
    have hstr : StrAt u.mem u.currentFile name ↔ u.mem (u.currentFile+Tar.mode)=0 := by
      rw [strAt_iff,hlen]
      exact ⟨fun h => h.2.2,fun h => ⟨hname,hzero,h⟩⟩
    rw [← hstr,memberName,hover,Option.getD_none]
    exact ⟨strAt_of_cString,fun h => h.cString (by omega)⟩
  · intro name hname hne htype hfuel
    refine ⟨_,unpackMember_long hname hne htype,?_,?_⟩
    · rw [memberName,Option.getD_some,cString_cut hfuel,Option.some_inj]
    · intro others
      dsimp only
      constructor
      · intro h hocc
        rw [← h _ hocc,update_self]
      · intro h a ha
        by_cases hx : a=u.currentFile+4096+u.memberSize
        · subst hx
          rw [update_self,h ha]
        · exact update_of_ne hx _ _

def fullNameMem (mode : String) : Mem :=
  tarHeader (fun _ => 0) 0 (String.ofList (List.replicate 100 'a')) mode "0" 0x30 []

def twiceNameMem : Mem :=
  overlay (tarHeader (fun _ => 0) 0 "L" "0" "5" 0x4c (str "aaaa")) 4096 (str "aaaa")

theorem long_names_twice : ∃ s v, vfsBoot=some s ∧
    memberName ⟨fullNameMem "",s,0,0,none⟩ 200=some (List.replicate 100 0x61#8) ∧
    unpackMember ⟨twiceNameMem,s,0,0,none⟩ (fun _ => true) 200=some v ∧
    v.memberName 200=some (str "aaaa") := by
  obtain ⟨s,-,hboot,-⟩ := vfsBoot_eq
  have hname : cString twiceNameMem 200 0=some (str "L") := by decide +kernel
  have hsize : oct2int twiceNameMem (0+Tar.size) 12=5 := by decide +kernel
  have htype : twiceNameMem (0+Tar.type)=0x4c#8 := by decide +kernel
  have hpath : pathOf twiceNameMem (0+512) 5=str "aaaa" ∧
      pathOf twiceNameMem (0+4096) 5=str "aaaa" := by decide +kernel
  have hlen : memberSize ⟨twiceNameMem,s,0,0,none⟩=5 := by
    rw [memberSize,hsize]
    rfl
  obtain ⟨v,hv,hread,-⟩ := (long_names_iff (fun _ => true) 200 ⟨twiceNameMem,s,0,0,none⟩).2.2
    (str "L") hname (by decide) (by simpa only using htype) (by rw [hlen]; decide)
  rw [hlen,hpath.1,hpath.2] at hread
  refine ⟨s,v,hboot,?_,hv,hread.mpr rfl⟩
  have hwindow : window (fullNameMem "") 0 100=List.replicate 100 0x61#8 ∧
      fullNameMem "" (0+Tar.mode)=0 := by decide +kernel
  exact ((long_names_iff (fun _ => true) 200 ⟨fullNameMem "",s,0,0,none⟩).2.1 _ rfl
    List.length_replicate (by simp) hwindow.1 (by decide)).mpr hwindow.2

/-- A directory with a long name of four bytes, and a file with other bytes in its data where the
name is looked for. -/
def longNameMem : Mem :=
  overlay (tarHeader (tarHeader (tarHeader (fun _ => 0) 0 "L" "0" "5" 0x4c (str "aaaa"))
    1024 "aaaa" "0000755" "0" 0x35 []) 1536 "f" "0000644" "10000" 0x30 []) 4096 (str "bbbbbb")

/-- The full name is read on into the mode. The directory aaaa becomes bbbbb, and the data of the
file behind it loses a byte. -/
theorem long_names_wrong : ∃ s v w, vfsBoot=some s ∧
    memberName ⟨fullNameMem "0000644",s,0,0,none⟩ 200=
      some (List.replicate 100 0x61#8++str "0000644") ∧
    unpackMember ⟨longNameMem,s,0,0,none⟩ (fun _ => true) 200=some v ∧
    pathOf longNameMem 512 5=str "aaaa" ∧ v.unpackMember (fun _ => true) 200=some w ∧
    (w.vfs.getNode none (str "/aaaa")).map (fun x => x.1)=some none ∧
    (w.vfs.getNode none (str "/bbbbb")).map (fun x => x.1)=some (some 4) ∧
    Occupied [(1536,(oct2int longNameMem (1536+Tar.size) 12).toNat)] 4101 ∧
    longNameMem 4101=0x62#8 ∧ v.mem 4101=0 := by
  have hrun : (vfsBoot.bind (fun s =>
      (unpackMember ⟨longNameMem,s,0,0,none⟩ (fun _ => true) 200).bind (fun v =>
        (v.unpackMember (fun _ => true) 200).map (fun w =>
          ((w.vfs.getNode none (str "/aaaa")).map (fun x => x.1),
            (w.vfs.getNode none (str "/bbbbb")).map (fun x => x.1),v.mem 4101)))))=
      some (some none,some (some 4),0) := by decide +kernel
  obtain ⟨s,hboot,hrun⟩ := bind_eq_some_iff.mp hrun
  obtain ⟨v,hv,hrun⟩ := bind_eq_some_iff.mp hrun
  obtain ⟨w,hw,hrun⟩ := map_eq_some_iff.mp hrun
  simp only [Prod.mk.injEq] at hrun
  refine ⟨s,v,w,hboot,?_,hv,by decide +kernel,hw,hrun.1,hrun.2.1,?_,by decide +kernel,hrun.2.2⟩
  · show cString (fullNameMem "0000644") 200 0=_
    decide +kernel
  · exact ⟨_,List.mem_singleton_self _,by decide +kernel,by decide +kernel⟩

end X64OS.Fs
