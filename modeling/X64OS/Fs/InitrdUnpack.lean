import X64OS.Fs.Initrd
import X64OS.Fs.VfsSound

namespace X64OS.Fs

open Framework
open Option (bind_some map_some)

structure Member where
  name : Str
  dir : Bool
  mode : Nat
  data : Str

def Member.kind (m : Member) : Nat := if m.dir then sIfdir else sIfreg

structure HeaderAt (mem : Mem) (a : Nat) (m : Member) : Prop where
  name : StrAt mem a m.name
  short : m.name.length < 100
  nonempty : m.name≠[]
  notDot : m.name≠str "./"
  mode : OctalAt mem (a+Tar.mode) 8 m.mode
  size : OctalAt mem (a+Tar.size) 12 m.data.length
  type : mem (a+Tar.type)=if m.dir then 0x35#8 else 0x30#8
  magic : window mem (a+Tar.magic) 5=str "ustar"
  data : window mem (a+512) m.data.length=m.data

/-- The members one after the other, in blocks of 512 bytes, and a block without
the magic behind them. -/
def ArchiveAt (mem : Mem) : Nat → List Member → Prop
  | a,[] => window mem (a+Tar.magic) 5≠str "ustar"
  | a,m::ms => HeaderAt mem a m ∧ ArchiveAt mem (a+512+(m.data.length+511)/512*512) ms

def VfsNode.HoldsMember (node : VfsNode) (m : Member) : Prop :=
  ∃ r, node.resource=some r ∧ r.stMode=m.mode ||| m.kind ∧ sIsdir r.stMode=m.dir ∧
    sIsreg r.stMode=!m.dir ∧
    (m.dir=false → r.stSize=m.data.length ∧ window r.data 0 m.data.length=m.data)

/-- The state s' holds what s held and one node for each member. -/
structure Unpacked (s : Vfs) (t : Tree) (ms : List Member) (s' : Vfs) (t' : Tree) : Prop where
  shows : s'.Shows t'
  length : s'.nodes.length=s.nodes.length+ms.length
  old : ∀ (i : Nat) (node : VfsNode), s.nodes[i]?=some node →
    ∃ children, s'.nodes[i]?=some { node with children := children }
  new : ∀ k m, ms[k]?=some m →
    ∃ node, s'.nodes[s.nodes.length+k]?=some node ∧ node.HoldsMember m
  bound : ∀ k m, ms[k]?=some m →
    t'.bound (components m.name)=some ⟨s.nodes.length+k,m.dir⟩
  rest : ∀ cs, (∀ m∈ms, components m.name≠cs) → t'.bound cs=t.bound cs

variable {s : Vfs} {t : Tree} {m : Member} {ms : List Member}

theorem Unpacked.nil (hs : s.Shows t) : Unpacked s t [] s t where
  shows := hs
  length := rfl
  old i node hnode := ⟨node.children,hnode⟩
  new k m hm := by simp at hm
  bound k m hm := by simp at hm
  rest cs _ := rfl

theorem Unpacked.cons {s₁ s' : Vfs} {t₁ t' : Tree} (h : Unpacked s t [m] s₁ t₁)
    (h' : Unpacked s₁ t₁ ms s' t') (hm : ∀ m'∈ms, components m'.name≠components m.name) :
    Unpacked s t (m::ms) s' t' := by
  have hlen : s₁.nodes.length=s.nodes.length+1 := h.length
  refine ⟨h'.shows,?_,?_,?_,?_,?_⟩
  · rw [h'.length,hlen,List.length_cons]
    omega
  · intro i node hnode
    obtain ⟨children,hnode₁⟩ := h.old i node hnode
    obtain ⟨children',hnode'⟩ := h'.old i _ hnode₁
    exact ⟨children',hnode'⟩
  · intro k m' hk
    cases k with
    | zero =>
      cases hk
      obtain ⟨node,hnode,r,hr,hrest⟩ := h.new 0 m rfl
      obtain ⟨children,hnode'⟩ := h'.old _ node hnode
      exact ⟨_,hnode',r,hr,hrest⟩
    | succ k =>
      obtain ⟨node,hnode,hholds⟩ := h'.new k m' hk
      rw [hlen,Nat.add_assoc,Nat.add_comm 1] at hnode
      exact ⟨node,hnode,hholds⟩
  · intro k m' hk
    cases k with
    | zero =>
      cases hk
      rw [h'.rest _ hm]
      exact h.bound 0 m rfl
    | succ k =>
      rw [h'.bound k m' hk,hlen,Nat.add_assoc,Nat.add_comm 1]
  · intro cs hcs
    rw [h'.rest cs (fun m' hm' => hcs m' (List.mem_cons_of_mem _ hm'))]
    refine h.rest cs ?_
    intro m' hm'
    rw [List.mem_singleton.mp hm']
    exact hcs m List.mem_cons_self

theorem Unpacked.single {s' : Vfs} {t' : Tree} {node : VfsNode} (hshows : s'.Shows t')
    (hlen : s'.nodes.length=s.nodes.length+1)
    (hold : ∀ (i : Nat) (node : VfsNode), s.nodes[i]?=some node →
      ∃ children, s'.nodes[i]?=some { node with children := children })
    (hnode : s'.nodes[s.nodes.length]?=some node) (hholds : node.HoldsMember m)
    (hbound : ∀ cs, t'.bound cs=if cs=components m.name then some ⟨s.nodes.length,m.dir⟩
      else t.bound cs) : Unpacked s t [m] s' t' := by
  refine ⟨hshows,hlen,hold,?_,?_,?_⟩
  · intro k m' hk
    obtain ⟨rfl,rfl⟩ : k=0 ∧ m=m' := by simpa [List.getElem?_singleton] using hk
    exact ⟨node,hnode,hholds⟩
  · intro k m' hk
    obtain ⟨rfl,rfl⟩ : k=0 ∧ m=m' := by simpa [List.getElem?_singleton] using hk
    rw [hbound,if_pos rfl]
    rfl
  · intro cs hcs
    rw [hbound,if_neg (hcs m (List.mem_singleton_self m)).symm]

theorem Vfs.Shows.setResource (hs : s.Shows t) {i : Nat} {node : VfsNode} {r : Resource}
    (hnode : s.nodes[i]?=some node) (hmode : node.mode=some r.stMode) :
    (s.setNode i { node with resource := some r }).Shows t := by
  have hget : ∀ (j : Nat) (other : VfsNode), s.nodes[j]?=some other →
      ∃ other' : VfsNode, (s.setNode i { node with resource := some r }).nodes[j]?=some other' ∧
        other'.next=other.next ∧ other'.mode=other.mode ∧ other'.children=other.children ∧
        other'.filesystem=other.filesystem := by
    intro j other hother
    obtain ⟨resource,hother',hsame⟩ := Vfs.setResource_node hnode hmode hother
    exact ⟨_,hother',rfl,hsame,rfl,rfl⟩
  have hreduce : ∀ {j k : Nat}, s.reduceNode j=some k →
      (s.setNode i { node with resource := some r }).reduceNode j=some k :=
    (Vfs.setResource_keepsLinks hnode hmode).reduceNode (Nat.le_of_eq List.length_set.symm)
  refine ⟨?_,?_,?_⟩
  · obtain ⟨n,hn,hb⟩ := hs.root
    exact ⟨n,hreduce hn,hb⟩
  · intro cs e he
    obtain ⟨other,mode,hother,hnext,hm,hrest⟩ := hs.entry cs e he
    obtain ⟨other',h1,h2,h3,-⟩ := hget _ other hother
    exact ⟨other',mode,h1,h2.trans hnext,h3.trans hm,hrest⟩
  · intro cs j other' hb hother'
    obtain ⟨other,-,hother,-⟩ := hs.entry cs _ hb
    obtain ⟨other'',h1,-,-,hchildren,hfs⟩ := hget _ other hother
    cases h1.symm.trans hother'
    obtain ⟨hcap,hofs,hchild⟩ := hs.dir cs j other hb hother
    rw [hchildren,hfs]
    exact ⟨hcap,hofs,fun name => (hchild name).mono hreduce⟩

theorem tmpfsResourceWrite_file {room : Nat → Bool} (hroom : ∀ n, room n=true) {mode : Nat}
    (hmode : sIsreg mode=true) {data : Str} (hdata : data.length < 2^62) :
    ∃ x r, tmpfsResourceWrite room (createTmpfsResource mode) data 0=some (x,r) ∧ r.stMode=mode ∧
      r.stSize=data.length ∧ window r.data 0 data.length=data := by
  have hfits : 0+data.length < 2^63 := by omega
  rcases (createTmpfsResource_holds hmode).write ⟨0,data⟩ hfits (by dsimp only; omega) with
    ⟨r,hr,hholds,-⟩ | ⟨-,-,c,-,hno⟩
  · have hsize : refSize ([]++[⟨0,data⟩])=data.length := by
      rw [refSize_append]
      simp [refSize]
    have hcap := hholds.room
    rw [hsize] at hcap
    refine ⟨_,r,hr,?_,hholds.size.trans hsize,?_⟩
    · rw [tmpfsResourceWrite_stMode hr,createTmpfsResource_stMode]
    · have hbytes : window r.data 0 data.length=window (overlay (refByte []) 0 data) 0 data.length := by
        refine window_congr ?_
        intro i hi
        rw [hholds.bytes _ (by omega),refByte_append]
      rw [hbytes,window_overlay]
  · rw [hroom c] at hno
    cases hno

theorem HeaderAt.createMode {mem : Mem} {a : Nat} (h : HeaderAt mem a m) :
    ((oct2int mem (a+Tar.mode) 8).toNat ||| m.kind)%2^32=m.mode ||| m.kind := by
  obtain ⟨hmode,hlt⟩ := h.mode.oct2int (by decide)
  have hkind : m.kind < 2^32 := by
    rw [Member.kind]
    split <;> decide
  rw [hmode]
  exact Nat.mod_eq_of_lt (Nat.or_lt_two_pow (Nat.lt_trans hlt (by decide)) hkind)

theorem Member.isdir (hkind : (m.mode ||| m.kind) &&& sIfmt=m.kind) :
    sIsdir (m.mode ||| m.kind)=m.dir ∧ sIsreg (m.mode ||| m.kind)=!m.dir := by
  rw [sIsdir,sIsreg,hkind,Member.kind]
  cases m.dir <;> decide

/-- What VFS::Create makes of a member: one more node, at its path, with a resource of its mode. -/
structure MemberCreated (s : Vfs) (t : Tree) (m : Member) (s' : Vfs) (t' : Tree) (node : VfsNode) :
    Prop where
  shows : s'.Shows t'
  length : s'.nodes.length=s.nodes.length+1
  old : ∀ (i : Nat) (node : VfsNode), s.nodes[i]?=some node →
    ∃ children, s'.nodes[i]?=some { node with children := children }
  new : s'.nodes[s.nodes.length]?=some node
  resource : node.resource=some (createTmpfsResource (m.mode ||| m.kind))
  bound : ∀ cs, t'.bound cs=if cs=components m.name then some ⟨s.nodes.length,m.dir⟩ else t.bound cs

section Created

variable {s' : Vfs} {t' : Tree} {node : VfsNode} {mem : Mem} {a p : Nat}
variable {cs : List Str} {name : Str}

theorem HeaderAt.create (hheader : HeaderAt mem a m) (hs : s.Shows t)
    (hkind : (m.mode ||| m.kind) &&& sIfmt=m.kind) (hpath : components m.name=cs++[name])
    (hp : t.bound cs=some ⟨p,true⟩) (hfree : t.bound (cs++[name])=none) : ∃ s' t' node,
      s.create (some s.vfsRoot) m.name (m.mode ||| m.kind)=some (some s.nodes.length,s') ∧
      MemberCreated s t m s' t' node := by
  obtain ⟨hdir,hreg⟩ := Member.isdir hkind
  have hnamed : namedPath m.name=some (cs++[name]) := by
    rw [namedPath,if_neg hheader.nonempty,hpath]
  have hname : name.length ≤ hashmapKeyDataMax := by
    have hle : name.length ≤ m.name.length := length_le_of_mem_components (by rw [hpath]; simp)
    have hshort := hheader.short
    exact Nat.le_trans hle (Nat.le_trans (Nat.le_of_lt hshort) (by decide))
  have hkinds : sIsdir (m.mode ||| m.kind)=true ∨ sIsreg (m.mode ||| m.kind)=true := by
    rw [hdir,hreg]
    cases m.dir <;> simp
  obtain ⟨s₁,fs,hcreate,hg,hshows⟩ := hs.create_vacant hnamed hp hfree hname hkinds
  refine ⟨s₁,_,_,hcreate,hshows,hg.length,?_,hg.new,rfl,?_⟩
  · intro i node hnode
    obtain ⟨children,h,-⟩ := hg.old hnode
    exact ⟨children,h⟩
  · intro cs'
    rw [Tree.insert_bound,hpath,hdir]

variable (h : MemberCreated s t m s' t' node) (hkind : (m.mode ||| m.kind) &&& sIfmt=m.kind)
include h hkind

theorem MemberCreated.directory (hd : m.dir=true) : Unpacked s t [m] s' t' := by
  obtain ⟨hdir,hreg⟩ := Member.isdir hkind
  refine .single h.shows h.length h.old h.new ⟨_,h.resource,?_,?_,?_,?_⟩ h.bound
  · exact createTmpfsResource_stMode _
  · rw [createTmpfsResource_stMode]
    exact hdir
  · rw [createTmpfsResource_stMode]
    exact hreg
  · intro hfalse
    rw [hd] at hfalse
    cases hfalse

theorem MemberCreated.file {r : Resource} (hmode : r.stMode=m.mode ||| m.kind)
    (hsize : r.stSize=m.data.length) (hdata : window r.data 0 m.data.length=m.data) :
    Unpacked s t [m] (s'.setNode s.nodes.length { node with resource := some r }) t' := by
  obtain ⟨hdir,hreg⟩ := Member.isdir hkind
  have hlen : s.nodes.length < s'.nodes.length := by
    rw [h.length]
    exact Nat.lt_succ_self _
  have hsame : node.mode=some r.stMode := by
    rw [VfsNode.mode,h.resource,hmode,map_some,createTmpfsResource_stMode]
  refine .single (h.shows.setResource h.new hsame) ?_ ?_ (List.getElem?_set_self hlen)
    ⟨r,rfl,hmode,by rw [hmode,hdir],by rw [hmode,hreg],fun _ => ⟨hsize,hdata⟩⟩ h.bound
  · exact List.length_set.trans h.length
  · intro i node hi
    obtain ⟨children,hchildren⟩ := h.old i node hi
    have hne : s.nodes.length≠i := by
      have := (List.getElem?_eq_some_iff.mp hi).1
      omega
    exact ⟨children,(List.getElem?_set_ne hne).trans hchildren⟩

end Created

namespace Unpacking

variable {u : Unpacking} {room : Nat → Bool} {cs : List Str} {name : Str} {p : Nat}

/-- The switch over the type makes the node of the member. -/
theorem unpackType_spec (hroom : ∀ n, room n=true) (hs : u.vfs.Shows t)
    (hheader : HeaderAt u.mem u.currentFile m) (hkind : (m.mode ||| m.kind) &&& sIfmt=m.kind)
    (hpath : components m.name=cs++[name]) (hp : t.bound cs=some ⟨p,true⟩)
    (hfree : t.bound (cs++[name])=none) :
    ∃ s' t', u.unpackType room m.name (oct2int u.mem (u.currentFile+Tar.mode) 8)
        (oct2int u.mem (u.currentFile+Tar.size) 12)=some { u with vfs := s' } ∧
      Unpacked u.vfs t [m] s' t' := by
  obtain ⟨hsize,hlt⟩ := hheader.size.oct2int (by decide)
  have hmode := hheader.createMode
  obtain ⟨s₁,t₁,node,hcreate,hmade⟩ := hheader.create hs hkind hpath hp hfree
  rw [unpackType,hheader.type]
  cases hd : m.dir with
  | true =>
    have hk : m.kind=sIfdir := by rw [Member.kind,hd]; rfl
    rw [hk] at hmode hcreate
    rw [if_pos rfl,if_neg (by decide),if_pos rfl,hmode,hcreate]
    exact ⟨s₁,t₁,rfl,hmade.directory hkind hd⟩
  | false =>
    have hk : m.kind=sIfreg := by rw [Member.kind,hd]; rfl
    have hregular : sIsreg (m.mode ||| m.kind)=true := by rw [(Member.isdir hkind).2,hd]; rfl
    have hdata : m.data.length < 2^62 := Nat.lt_trans hlt (by decide)
    obtain ⟨x,r,hwrite,hrmode,hrsize,hrdata⟩ := tmpfsResourceWrite_file hroom hregular hdata
    have hnode : s₁.writeNode room u.vfs.nodes.length m.data 0=
        some (s₁.setNode u.vfs.nodes.length { node with resource := some r }) := by
      rw [Vfs.writeNode,hmade.new,bind_some,hmade.resource,bind_some,hwrite]
      rfl
    rw [← hk,if_neg Bool.false_ne_true,if_pos rfl,hmode,hcreate,hsize,hheader.data,bind_some,
      bind_some,hnode]
    exact ⟨_,t₁,rfl,hmade.file hkind hrmode hrsize hrdata⟩

/-- One round of the loop goes on to the next member. -/
theorem unpackMember_spec (hroom : ∀ n, room n=true) (hs : u.vfs.Shows t) (hover : u.nameOverride=none)
    (hheader : HeaderAt u.mem u.currentFile m) (hkind : (m.mode ||| m.kind) &&& sIfmt=m.kind)
    (hpath : components m.name=cs++[name]) (hp : t.bound cs=some ⟨p,true⟩)
    (hfree : t.bound (cs++[name])=none) :
    ∃ s' t' size, Unpacked u.vfs t [m] s' t' ∧
      ∀ fuel, 100 ≤ fuel → u.unpackMember room fuel=some ⟨u.mem,s',
        u.currentFile+512+(m.data.length+511)/512*512,u.tarSize+size,none⟩ := by
  obtain ⟨hsize,hlt⟩ := hheader.size.oct2int (by decide)
  obtain ⟨s',t',htype,hun⟩ := unpackType_spec (u := { u with nameOverride := none }) hroom hs hheader
    hkind hpath hp hfree
  have halign : Memory.alignUp (oct2int u.mem (u.currentFile+Tar.size) 12).toNat 512=
      (m.data.length+511)/512*512 := by
    have hmax : (8 : Nat)^(12-1)=2^33 := by decide
    rw [hsize,Memory.alignUp,Memory.divRoundup]
    omega
  refine ⟨s',t',oct2int u.mem (u.currentFile+Tar.size) 12,hun,?_⟩
  intro fuel hfuel
  have hname : cString u.mem fuel (u.nameOverride.getD u.currentFile)=some m.name := by
    have hshort := hheader.short
    rw [hover]
    exact hheader.name.cString (by omega)
  rw [unpackMember,hname,bind_some]
  dsimp only at htype ⊢
  rw [if_neg hheader.notDot,htype,map_some,halign]

end Unpacking

/-- Every member comes after the directory it is in, if that is not there yet. -/
def ParentsFirst (t : Tree) (ms : List Member) : Prop :=
  ∀ (k : Nat) (m : Member) (cs : List Str) (name : Str),
    ms[k]?=some m → components m.name=cs++[name] →
    (∃ p, t.bound cs=some ⟨p,true⟩) ∨
      ∃ (j : Nat) (parent : Member), j < k ∧ ms[j]?=some parent ∧ parent.dir=true ∧
        components parent.name=cs

/-- The paths of the members are new: no two are the same and none is there yet. -/
structure NewPaths (t : Tree) (ms : List Member) : Prop where
  parents : ParentsFirst t ms
  vacant : ∀ m∈ms, t.bound (components m.name)=none
  distinct : (ms.map (fun m => components m.name)).Nodup

theorem NewPaths.head (h : NewPaths t (m::ms)) :
    ∃ cs name p, components m.name=cs++[name] ∧ t.bound cs=some ⟨p,true⟩ ∧
      t.bound (cs++[name])=none := by
  have hfree := h.vacant m List.mem_cons_self
  rcases List.eq_nil_or_concat (components m.name) with hnil | ⟨cs,name,hpath⟩
  · obtain ⟨n,hroot⟩ := t.root
    rw [hnil,hroot] at hfree
    cases hfree
  · rw [List.concat_eq_append] at hpath
    rw [hpath] at hfree
    rcases h.parents 0 m cs name rfl hpath with ⟨p,hp⟩ | ⟨j,parent,hj,-⟩
    · exact ⟨cs,name,p,hpath,hp,hfree⟩
    · cases hj

theorem NewPaths.ne_head (h : NewPaths t (m::ms)) {m' : Member} (hm : m'∈ms) :
    components m'.name≠components m.name := by
  have hnot := (List.nodup_cons.mp h.distinct).1
  intro he
  exact hnot (List.mem_map.mpr ⟨m',hm,he⟩)

theorem NewPaths.tail {s₁ : Vfs} {t₁ : Tree} (h : NewPaths t (m::ms))
    (hun : Unpacked s t [m] s₁ t₁) : NewPaths t₁ ms := by
  have hkeep : ∀ cs, cs≠components m.name → t₁.bound cs=t.bound cs := by
    intro cs hcs
    refine hun.rest cs ?_
    intro m' hm'
    rw [List.mem_singleton.mp hm']
    exact Ne.symm hcs
  refine ⟨?_,?_,(List.nodup_cons.mp h.distinct).2⟩
  · intro k m' cs name hk hpath
    rcases h.parents (k+1) m' cs name hk hpath with ⟨p,hp⟩ | ⟨j,parent,hj,hparent,hdir,hcs⟩
    · refine .inl ⟨p,?_⟩
      rw [hkeep]
      · exact hp
      · rintro rfl
        rw [h.vacant m List.mem_cons_self] at hp
        cases hp
    · cases j with
      | zero =>
        cases hparent
        refine .inl ⟨s.nodes.length+0,?_⟩
        rw [← hcs,hun.bound 0 m rfl,hdir]
      | succ j => exact .inr ⟨j,parent,by omega,hparent,hdir,hcs⟩
  · intro m' hm'
    rw [hkeep _ (h.ne_head hm')]
    exact h.vacant m' (List.mem_cons_of_mem _ hm')

theorem Unpacking.unpackLoop_spec {room : Nat → Bool} (hroom : ∀ n, room n=true) {u : Unpacking}
    (hs : u.vfs.Shows t) (hover : u.nameOverride=none) (harchive : ArchiveAt u.mem u.currentFile ms)
    (hnew : NewPaths t ms) (hkinds : ∀ m∈ms, (m.mode ||| m.kind) &&& sIfmt=m.kind) :
    ∃ u' t', Unpacked u.vfs t ms u'.vfs t' ∧
      ∀ fuel n, 100 ≤ fuel → ms.length < n → unpackLoop room fuel n u=some u' := by
  induction ms generalizing u t with
  | nil =>
    refine ⟨u,t,.nil hs,?_⟩
    intro fuel n _ hn
    obtain ⟨k,rfl⟩ : ∃ k, n=k+1 := ⟨n-1,by simp at hn; omega⟩
    exact if_neg harchive
  | cons m ms ih =>
    obtain ⟨hheader,hrest⟩ := harchive
    obtain ⟨cs,name,p,hpath,hp,hfree⟩ := hnew.head
    obtain ⟨s₁,t₁,size,hun,hstep⟩ := unpackMember_spec hroom hs hover hheader
      (hkinds m List.mem_cons_self) hpath hp hfree
    obtain ⟨u',t',hun',hloop⟩ := ih (u := ⟨u.mem,s₁,_,u.tarSize+size,none⟩) hun.shows rfl hrest
      (hnew.tail hun) (fun m' hm' => hkinds m' (List.mem_cons_of_mem _ hm'))
    refine ⟨u',t',hun.cons hun' (fun m' hm' => hnew.ne_head hm'),?_⟩
    intro fuel n hfuel hn
    obtain ⟨k,rfl⟩ : ∃ k, n=k+1 := ⟨n-1,by simp at hn; omega⟩
    rw [unpackLoop,if_pos hheader.magic,hstep fuel hfuel,bind_some]
    exact hloop fuel k hfuel (by simpa using hn)

/-- Unpacking an archive ends, and leaves the file tree with one more node for each
member: a directory, or a file with the bytes of the member. -/
theorem initrd_unpacks (room : Nat → Bool) (hroom : ∀ n, room n=true) (mem : Mem) (fileAddr : Nat)
    (ms : List Member) (s : Vfs) (t : Tree) (hs : s.Shows t) (harchive : ArchiveAt mem fileAddr ms)
    (hnew : NewPaths t ms) (hkinds : ∀ m∈ms, (m.mode ||| m.kind) &&& sIfmt=m.kind) :
    ∃ s' t' pages fuel₀, Unpacked s t ms s' t' ∧
      ∀ fuel, fuel₀ ≤ fuel → unpackAddr room fuel mem fileAddr s=some (s',pages) := by
  obtain ⟨u',t',hun,hloop⟩ := Unpacking.unpackLoop_spec hroom (u := ⟨mem,s,fileAddr,0,none⟩) hs rfl
    harchive hnew hkinds
  refine ⟨u'.vfs,t',u'.tarSize.toNat/4096,100+ms.length,hun,?_⟩
  intro fuel hfuel
  rw [unpackAddr,hloop fuel fuel (by omega) (by omega)]
  rfl

def tarHeader (mem : Mem) (a : Nat) (name mode size : String) (type : BitVec 8) (data : Str) : Mem :=
  overlay (overlay (overlay (overlay (overlay (overlay mem a (str name)) (a+Tar.mode) (str mode))
    (a+Tar.size) (str size)) (a+Tar.type) [type]) (a+Tar.magic) (str "ustar")) (a+512) data

def twoMembers : List Member := [⟨str "d/",true,0o755,[]⟩,⟨str "d/f",false,0o644,[1,2,3]⟩]

def twoMembersAt : Mem :=
  tarHeader (tarHeader (fun _ => 0) 0 "d/" "0000755" "0" 0x35 []) 512 "d/f" "0000644" "00000000003" 0x30
    [1,2,3]

theorem HeaderAt.of_digits {mem : Mem} {a : Nat} (mode size : Str)
    (hname : StrAt mem a m.name ∧ m.name.length < 100 ∧ m.name≠[] ∧ m.name≠str "./")
    (hmode : StrAt mem (a+Tar.mode) mode ∧ mode.length < 8 ∧
      (∀ d∈mode, 48 ≤ d.toNat ∧ d.toNat < 56) ∧ octalValue mode=m.mode)
    (hsize : StrAt mem (a+Tar.size) size ∧ size.length < 12 ∧
      (∀ d∈size, 48 ≤ d.toNat ∧ d.toNat < 56) ∧ octalValue size=m.data.length)
    (hrest : mem (a+Tar.type)=(if m.dir then 0x35#8 else 0x30#8) ∧
      window mem (a+Tar.magic) 5=str "ustar" ∧ window mem (a+512) m.data.length=m.data) :
    HeaderAt mem a m :=
  ⟨hname.1,hname.2.1,hname.2.2.1,hname.2.2.2,⟨mode,hmode⟩,⟨size,hsize⟩,hrest.1,hrest.2.1,hrest.2.2⟩

theorem twoMembers_archive : ArchiveAt twoMembersAt 0 twoMembers := by
  refine ⟨.of_digits (str "0000755") (str "0") ?_ ?_ ?_ ?_,
    .of_digits (str "0000644") (str "00000000003") ?_ ?_ ?_ ?_,?_⟩
  case refine_9 =>
    show window twoMembersAt _ 5≠_
    decide +kernel
  all_goals decide +kernel

theorem twoMembers_newPaths : NewPaths .boot twoMembers := by
  have hd : components (str "d/")=[str "d"] := by decide +kernel
  have hf : components (str "d/f")=[str "d",str "f"] := by decide +kernel
  refine ⟨?_,by decide +kernel,by decide +kernel⟩
  intro k m cs name hk hpath
  match k with
  | 0 =>
    cases hk
    have hsplit : []++[str "d"]=cs++[name] := hd.symm.trans hpath
    obtain ⟨rfl,-⟩ := List.append_inj' hsplit rfl
    exact .inl Tree.boot.root
  | 1 =>
    cases hk
    have hsplit : [str "d"]++[str "f"]=cs++[name] := hf.symm.trans hpath
    obtain ⟨rfl,-⟩ := List.append_inj' hsplit rfl
    exact .inr ⟨0,_,Nat.zero_lt_one,rfl,rfl,hd⟩
  | k+2 => cases hk

theorem initrd_unpacks_twoMembers : ∃ s s' t' pages fuel₀, vfsBoot=some s ∧
    Unpacked s .boot twoMembers s' t' ∧
    ∀ fuel, fuel₀ ≤ fuel → unpackAddr (fun _ => true) fuel twoMembersAt 0 s=some (s',pages) := by
  obtain ⟨s,-,hboot,-⟩ := vfsBoot_eq
  obtain ⟨s',t',pages,fuel₀,hun,hrun⟩ := initrd_unpacks (fun _ => true) (fun _ => rfl) twoMembersAt 0
    twoMembers s .boot (vfsBoot_shows hboot) twoMembers_archive twoMembers_newPaths (by decide)
  exact ⟨s,s',t',pages,fuel₀,hboot,hun,hrun⟩

/-- A regular file whose mode field has the bit of a directory as well. -/
def socketMember : Member := ⟨str "a",false,0o40644,[]⟩

def socketMemberAt : Mem := tarHeader (fun _ => 0) 0 "a" "0040644" "0" 0x30 []

theorem socketMember_header : HeaderAt socketMemberAt 0 socketMember :=
  .of_digits (str "0040644") (str "0") (by decide +kernel) (by decide +kernel) (by decide +kernel)
    (by decide +kernel)

/-- Its mode becomes that of a socket, which has no buffer, and the write never ends. -/
theorem initrd_type_bits : ∃ s, vfsBoot=some s ∧ ArchiveAt socketMemberAt 0 [socketMember] ∧
    NewPaths .boot [socketMember] ∧
    ∀ fuel, unpackAddr (fun _ => true) fuel socketMemberAt 0 s=none := by
  obtain ⟨s,-,hboot,-⟩ := vfsBoot_eq
  refine ⟨s,hboot,⟨socketMember_header,?_⟩,⟨?_,by decide +kernel,by decide +kernel⟩,?_⟩
  · show window socketMemberAt _ 5≠_
    decide +kernel
  · have ha : components (str "a")=[str "a"] := by decide +kernel
    intro k m cs name hk hpath
    obtain ⟨rfl,rfl⟩ : k=0 ∧ socketMember=m := by simpa [List.getElem?_singleton] using hk
    have hsplit : []++[str "a"]=cs++[name] := ha.symm.trans hpath
    obtain ⟨rfl,-⟩ := List.append_inj' hsplit rfl
    exact .inl Tree.boot.root
  · have htype : (Unpacking.unpackType ⟨socketMemberAt,s,0,0,none⟩ (fun _ => true) (str "a")
        (oct2int socketMemberAt (0+Tar.mode) 8) (oct2int socketMemberAt (0+Tar.size) 12)).isNone := by
      have heval : (vfsBoot.map (fun s => (Unpacking.unpackType ⟨socketMemberAt,s,0,0,none⟩
          (fun _ => true) (str "a") (oct2int socketMemberAt (0+Tar.mode) 8)
          (oct2int socketMemberAt (0+Tar.size) 12)).isNone))=some true := by
        decide +kernel
      rw [hboot,map_some] at heval
      exact Option.some.inj heval
    intro fuel
    have hmember : Unpacking.unpackMember ⟨socketMemberAt,s,0,0,none⟩ (fun _ => true) fuel=none := by
      by_cases hfuel : 1 < fuel
      · have hname : cString socketMemberAt fuel 0=some (str "a") :=
          socketMember_header.name.cString hfuel
        simp only [Unpacking.unpackMember,Option.getD_none,hname,bind_some]
        rw [if_neg (by decide),Option.isNone_iff_eq_none.mp htype]
        rfl
      · have hname : cString socketMemberAt fuel 0=none := by
          obtain rfl | rfl : fuel=0 ∨ fuel=1 := by omega
          · rfl
          · decide +kernel
        simp only [Unpacking.unpackMember,Option.getD_none,hname,Option.bind_none]
    cases fuel with
    | zero => rfl
    | succ fuel =>
      rw [unpackAddr,Unpacking.unpackLoop,if_pos socketMember_header.magic,hmember]
      rfl

end X64OS.Fs
