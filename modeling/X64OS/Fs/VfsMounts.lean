import Mathlib.Data.Fintype.Card
import X64OS.Fs.VfsTree

namespace X64OS.Fs

open Framework
open Option (map_eq_some_iff bind_eq_some_iff)

inductive MountCall where
  | create (parent : Option Nat) (path : Str) (mode : Nat)
  | mount (parent : Option Nat) (source : Option Str) (target fsName : Str)

def mountCall (s : Vfs) : MountCall → Option Vfs
  | .create parent path mode => (s.create parent path mode).map (fun x => x.2)
  | .mount parent source target fsName => (s.mount parent source target fsName).map (fun x => x.2)

/-- No mount of devtmpfs on the node to which its root leads already. -/
def OffDevtmpfs (s : Vfs) : MountCall → Prop
  | .create _ _ _ => True
  | .mount parent _ target fsName => s.filesystems.get fsName=some .devtmpfs →
      ∀ t, (s.getNode parent target).bind (fun x => x.1)=some t → s.reduceNode s.devtmpfsRoot≠some t

def mountSystem : System Vfs MountCall := .ofPartial mountCall

namespace Vfs

variable {s s' : Vfs} {i j n m : Nat}

def Leads (s : Vfs) (i j : Nat) : Prop :=
  ∃ node,s.nodes[i]?=some node ∧ (node.redir=some j ∨ node.mountpoint=some j)

theorem KeepsLinks.refl (s : Vfs) : KeepsLinks s s := fun _ node h => ⟨node,h,rfl⟩

theorem reduceFrom_mono (hn : n ≤ m) (h : s.reduceFrom n i=some j) : s.reduceFrom m i=some j :=
  (KeepsLinks.refl s).reduceFrom hn h

theorem exists_steps_left (h : s.reduceFrom n i=some j) (hmin : s.reduceFrom (n-1) i=none)
    (hm : 0 < m) (hmn : m ≤ n) :
    ∃ k,k < s.nodes.length ∧ s.reduceFrom m k=some j ∧ s.reduceFrom (m-1) k=none := by
  induction n generalizing i with
  | zero => cases h
  | succ n ih =>
    obtain ⟨n',node,hn',hnode,hcases⟩ := reduceFrom_cases h
    cases hn'
    have hi := (List.getElem?_eq_some_iff.mp hnode).1
    by_cases hmn' : m=n+1
    · rw [hmn']
      exact ⟨i,hi,h,hmin⟩
    · obtain ⟨k,rfl⟩ : ∃ k,n=k+1 := ⟨n-1,by omega⟩
      rw [Nat.add_sub_cancel] at hmin
      rcases hcases with ⟨hnext,-⟩ | ⟨next,hnext,hk⟩
      · -- the last node needs one step only
        rw [reduceFrom_last hnode hnext] at hmin
        cases hmin
      · rw [reduceFrom_next hnode hnext] at hmin
        exact ih hk hmin (by omega)

theorem reduceNode_of_reduceFrom (h : s.reduceFrom n i=some j) : s.reduceNode i=some j := by
  induction n with
  | zero => cases h
  | succ n ih =>
    by_cases hmin : s.reduceFrom n i=none
    · have hleft : ∀ m : Fin (n+1),∃ k : Fin s.nodes.length,
          s.reduceFrom (m+1) k=some j ∧ s.reduceFrom m k=none := by
        intro m
        obtain ⟨k,hk,h1,h2⟩ := exists_steps_left (m := m+1) h hmin (by omega) (by omega)
        exact ⟨⟨k,hk⟩,h1,h2⟩
      choose node hsome hnone using hleft
      have hinj : Function.Injective node := by
        intro a b hab
        have hle : ∀ a b : Fin (n+1),node a=node b → a ≤ b := by
          intro a b hab
          by_contra hlt
          have hb := reduceFrom_mono (m := a) (by simp only [not_le] at hlt; omega) (hsome b)
          rw [← hab,hnone a] at hb
          cases hb
        exact le_antisymm (hle a b hab) (hle b a hab.symm)
      have hcard := Fintype.card_le_of_injective node hinj
      rw [Fintype.card_fin,Fintype.card_fin] at hcard
      exact reduceFrom_mono hcard h
    · obtain ⟨j',hj⟩ := Option.ne_none_iff_exists'.mp hmin
      have hsame := reduceFrom_mono (Nat.le_succ n) hj
      rw [h] at hsame
      cases hsame
      exact ih hj

/-- Every node leads somewhere in the end; nothing uses redir. -/
structure Settled (s : Vfs) : Prop where
  redir : ∀ (i : Nat) (node : VfsNode),s.nodes[i]?=some node → node.redir=none
  reduces : ∀ i,i < s.nodes.length → ∃ n j,s.reduceFrom n i=some j
  device : s.devtmpfsRoot < s.nodes.length

theorem Settled.leads (hs : s.Settled) (h : s.Leads i j) {r : Nat} (hn : s.reduceFrom n i=some r) :
    ∃ m,m < n ∧ s.reduceFrom m j=some r := by
  obtain ⟨node,hnode,hj⟩ := h
  have hnext : node.next=some j := by
    rw [VfsNode.next,hs.redir i node hnode,Option.none_or]
    rw [hs.redir i node hnode] at hj
    exact hj.resolve_left (by simp)
  obtain ⟨m,node',rfl,hnode',hcases⟩ := reduceFrom_cases hn
  rw [hnode] at hnode'
  cases hnode'
  rw [reduceFrom_next hnode hnext] at hn
  exact ⟨m,Nat.lt_succ_self m,hn⟩

theorem Settled.acyclic (hs : s.Settled) (i : Nat) : ¬Relation.TransGen s.Leads i i := by
  have hdown : ∀ {i j n r : Nat},Relation.TransGen s.Leads i j → s.reduceFrom n i=some r →
      ∃ m,m < n ∧ s.reduceFrom m j=some r := by
    intro i j n r hpath hn
    induction hpath with
    | single hl => exact hs.leads hl hn
    | tail _ hl ih =>
      obtain ⟨m,hm,hr⟩ := ih
      obtain ⟨m',hm',hr'⟩ := hs.leads hl hr
      exact ⟨m',Nat.lt_trans hm' hm,hr'⟩
  intro hpath
  obtain ⟨k,⟨node,hnode,-⟩,-⟩ := Relation.TransGen.head'_iff.mp hpath
  obtain ⟨n,r,hn⟩ := hs.reduces i (List.getElem?_eq_some_iff.mp hnode).1
  -- each time round takes fewer steps
  induction n using Nat.strong_induction_on with
  | _ n ih =>
    obtain ⟨m,hm,hr⟩ := hdown hpath hn
    exact ih m hm hr

/-- s' is s, but for the node t, which is a last one in s. -/
structure Relinked (s s' : Vfs) (t : Nat) : Prop where
  final : s.Final t
  keep : ∀ (i : Nat) (node : VfsNode),s.nodes[i]?=some node → i≠t → s'.nodes[i]?=some node

variable {t : Nat} {parent : Option Nat} {node : VfsNode}

/-- A chain of s that does not end in t never comes to t. -/
theorem Relinked.reduceFrom (h : Relinked s s' t) (hj : j≠t) (hn : s.reduceFrom n i=some j) :
    s'.reduceFrom n i=some j := by
  induction n generalizing i with
  | zero => cases hn
  | succ n ih =>
    have hit : i≠t := by
      rintro rfl
      obtain ⟨node,hnode,hnext⟩ := h.final
      rw [reduceFrom_last hnode hnext] at hn
      exact hj (Option.some.inj hn).symm
    obtain ⟨n',node,hn',hnode,hcases⟩ := reduceFrom_cases hn
    cases hn'
    have hnode' := h.keep i node hnode hit
    rcases hcases with ⟨hnext,rfl⟩ | ⟨next,hnext,hk⟩
    · exact reduceFrom_last hnode' hnext
    · rw [reduceFrom_next hnode' hnext]
      exact ih hk

/-- A chain of s that ends in t goes on as t does. -/
theorem Relinked.reduceFrom_onward {d k : Nat} (h : Relinked s s' t) (ht : s'.reduceFrom k t=some d)
    (hn : s.reduceFrom n i=some t) : ∃ m,s'.reduceFrom m i=some d := by
  induction n generalizing i with
  | zero => cases hn
  | succ n ih =>
    by_cases hit : i=t
    · rw [hit]
      exact ⟨k,ht⟩
    · obtain ⟨n',node,hn',hnode,⟨-,heq⟩ | ⟨next,hnext,hk⟩⟩ := reduceFrom_cases hn
      · exact absurd heq.symm hit
      · cases hn'
        obtain ⟨m,hm⟩ := ih hk
        exact ⟨m+1,by rw [reduceFrom_next (h.keep i node hnode hit) hnext]; exact hm⟩

theorem path2node_setErrno (s : Vfs) (e : Option Errno) (parent : Option Nat) (path : Option Str) :
    (s.setErrno e).path2node parent path=s.path2node parent path := rfl

theorem mountSource_setErrno {source : Option Str} {x : Option (Option Nat) × Vfs}
    (h : s.mountSource parent source=some x) : ∃ e,x.2=s.setErrno e := by
  cases source with
  | none =>
    cases h
    exact ⟨none,rfl⟩
  | some source =>
    rw [mountSource] at h
    split at h
    · cases h
      exact ⟨none,rfl⟩
    · obtain ⟨r,-,h⟩ := bind_eq_some_iff.mp h
      dsimp only at h
      split at h
      · cases h
        exact ⟨r.errno,rfl⟩
      · obtain ⟨mode,-,rfl⟩ := map_eq_some_iff.mp h
        split
        · exact ⟨some .eisdir,rfl⟩
        · exact ⟨r.errno,rfl⟩

theorem mount_cases {source : Option Str} {target fsName : Str} {ok : Bool}
    (h : s.mount parent source target fsName=some (ok,s')) :
    (∃ e,s'=s.setErrno e) ∨
      ∃ fs r t node e,s.filesystems.get fsName=some fs ∧ s.path2node parent (some target)=some r ∧
        r.target=some t ∧ s.nodes[t]?=some node ∧
        s'=((s.setErrno e).fsMount fs r.targetParent (r.basename.getD [])).2.setNode t
          { node with
            mountpoint := some ((s.setErrno e).fsMount fs r.targetParent (r.basename.getD [])).1 } := by
  rw [mount] at h
  cases hfs : s.filesystems.get fsName with
  | none =>
    rw [hfs] at h
    cases h
    exact .inl ⟨some .enodev,rfl⟩
  | some fs =>
    rw [hfs] at h
    obtain ⟨⟨src,s₁⟩,hsource,h⟩ := bind_eq_some_iff.mp h
    obtain ⟨e,he⟩ := mountSource_setErrno hsource
    dsimp only at he h
    subst he
    cases src with
    | none =>
      cases h
      exact .inl ⟨e,rfl⟩
    | some src =>
      obtain ⟨r,hr,h⟩ := bind_eq_some_iff.mp h
      rw [path2node_setErrno] at hr
      have herr : (s.setErrno e).setErrno r.errno=s.setErrno (r.errno.or e) := by
        cases r.errno <;> rfl
      rw [herr] at h
      cases ht : r.target with
      | none =>
        rw [ht] at h
        cases h
        exact .inl ⟨_,rfl⟩
      | some t =>
        rw [ht] at h
        obtain ⟨node,hnode,h⟩ := bind_eq_some_iff.mp h
        obtain ⟨dir,-,h⟩ := map_eq_some_iff.mp h
        split at h
        · cases h
          exact .inr ⟨fs,r,t,node,_,rfl,hr,ht,hnode,rfl⟩
        · cases h
          exact .inl ⟨_,rfl⟩

theorem path2node_target_final {path : Str} {r : Path2node}
    (h : s.path2node parent (some path)=some r) (ht : r.target=some t) : s.Final t := by
  rcases path2node_walked h with ⟨i,hi,rfl⟩ | hw
  · cases ht
    exact hi
  · cases hw with
    | nowhere => cases ht
    | missing => cases ht
    | found _ hnew _ =>
      cases ht
      exact hnew
    | notDirectory => cases ht

variable (hs : s.Settled)
include hs

theorem Settled.setErrno (e : Option Errno) : (s.setErrno e).Settled := by
  refine ⟨hs.redir,?_,hs.device⟩
  intro i hi
  obtain ⟨n,j,hn⟩ := hs.reduces i hi
  have hkeep : KeepsLinks s (s.setErrno e) := fun _ node hnode => ⟨node,hnode,rfl⟩
  exact ⟨n,j,hkeep.reduceFrom le_rfl hn⟩

theorem Settled.grown {p : Nat} {name : Str} {new : VfsNode} (hg : Grown s s' p name new)
    (hredir : new.redir=none) (hnext : new.next=none) : s'.Settled := by
  have hlen := hg.length
  refine ⟨?_,?_,?_⟩
  · intro i node hnode
    by_cases hi : i < s.nodes.length
    · obtain ⟨old,hold⟩ : ∃ old,s.nodes[i]?=some old := ⟨_,List.getElem?_eq_getElem hi⟩
      obtain ⟨children,hnode',-⟩ := hg.old hold
      rw [hnode'] at hnode
      cases hnode
      exact hs.redir i old hold
    · have hlast : i=s.nodes.length := by
        have := (List.getElem?_eq_some_iff.mp hnode).1
        omega
      rw [hlast,hg.new] at hnode
      cases hnode
      exact hredir
  · intro i hi
    by_cases hold : i < s.nodes.length
    · obtain ⟨n,j,hn⟩ := hs.reduces i hold
      exact ⟨n,j,hg.keepsLinks.reduceFrom le_rfl hn⟩
    · have hlast : i=s.nodes.length := by omega
      rw [hlast]
      exact ⟨0+1,_,reduceFrom_last hg.new hnext⟩
  · rw [hg.device,hlen]
    exact Nat.lt_succ_of_lt hs.device

theorem Settled.relinked {d : Nat} (h : Relinked s s' t) (hnode : s'.nodes[t]?=some node)
    (hredir : node.redir=none) (hmount : node.mountpoint=some m) (hm : s'.reduceFrom n m=some d)
    (hdevice : s'.devtmpfsRoot=s.devtmpfsRoot) (hlen : s.nodes.length ≤ s'.nodes.length)
    (hnew : ∀ (i : Nat) (node : VfsNode),s'.nodes[i]?=some node → s.nodes.length ≤ i →
      node.redir=none ∧ node.mountpoint=none) : s'.Settled := by
  have hgoes : s'.reduceFrom (n+1) t=some d := by
    rw [reduceFrom_next hnode (by rw [VfsNode.next,hredir,hmount]; rfl)]
    exact hm
  refine ⟨?_,?_,?_⟩
  · intro i node' hnode'
    by_cases hi : i < s.nodes.length
    · by_cases hit : i=t
      · rw [hit,hnode] at hnode'
        cases hnode'
        exact hredir
      · have hold := List.getElem?_eq_getElem hi
        rw [h.keep i _ hold hit] at hnode'
        cases hnode'
        exact hs.redir i _ hold
    · exact (hnew i node' hnode' (Nat.le_of_not_lt hi)).1
  · intro i hi
    by_cases hold : i < s.nodes.length
    · obtain ⟨k,j,hk⟩ := hs.reduces i hold
      by_cases hj : j=t
      · subst hj
        obtain ⟨k',hk'⟩ := h.reduceFrom_onward hgoes hk
        exact ⟨k',d,hk'⟩
      · exact ⟨k,j,h.reduceFrom hj hk⟩
    · have hget := List.getElem?_eq_getElem hi
      obtain ⟨h1,h2⟩ := hnew i _ hget (Nat.le_of_not_lt hold)
      exact ⟨0+1,i,reduceFrom_last hget (by rw [VfsNode.next,h1,h2]; rfl)⟩
  · rw [hdevice]
    exact Nat.lt_of_lt_of_le hs.device hlen

theorem Settled.create {path : Str} {mode : Nat} {o : Option Nat}
    (h : s.create parent path mode=some (o,s')) : s'.Settled := by
  obtain ⟨r,-,⟨-,⟨e,rfl⟩,-⟩ | ⟨p,name,dir,fs,-,-,-,-,-,-,hg⟩⟩ := create_cases h
  · exact hs.setErrno e
  · exact hs.grown hg rfl rfl

theorem Settled.mountTmpfs (ht : s.Final t) (hnode : s.nodes[t]?=some node) (parent : Option Nat)
    (name : Str) :
    ((s.fsMount .tmpfs parent name).2.setNode t
      { node with mountpoint := some (s.fsMount .tmpfs parent name).1 }).Settled := by
  have hlt : t < s.nodes.length := (List.getElem?_eq_some_iff.mp hnode).1
  have hredir := hs.redir t node hnode
  have hget : ∀ i,i≠t → ((s.fsMount .tmpfs parent name).2.setNode t
      { node with mountpoint := some (s.fsMount .tmpfs parent name).1 }).nodes[i]?=
      (s.fsMount .tmpfs parent name).2.nodes[i]? := fun i hi => List.getElem?_set_ne (Ne.symm hi)
  have hnew : (s.fsMount .tmpfs parent name).2.nodes[s.nodes.length]?=
      some { createNode (some .tmpfs) parent name (sIsdir (0o644 ||| sIfdir)) with
        resource := some (createTmpfsResource (0o644 ||| sIfdir)) } := List.getElem?_concat_length
  refine hs.relinked (n := 0+1) ⟨ht,?_⟩ (List.getElem?_set_self ?_) hredir rfl
    (reduceFrom_last ((hget s.nodes.length (by omega)).trans hnew) rfl) rfl ?_ ?_
  · intro i old hold hi
    rw [hget i hi]
    exact (List.getElem?_append_left (List.getElem?_eq_some_iff.mp hold).1).trans hold
  · simp only [fsMount,fsCreate,addNode,List.length_append,List.length_singleton]
    omega
  · simp [fsMount,fsCreate,addNode,setNode]
  · intro i old hold hi
    have hlast : i=s.nodes.length := by
      have h := (List.getElem?_eq_some_iff.mp hold).1
      simp only [fsMount,fsCreate,addNode,setNode,List.length_set,List.length_append,
        List.length_singleton] at h
      omega
    rw [hget i (by omega),hlast,hnew] at hold
    cases hold
    exact ⟨rfl,rfl⟩

theorem Settled.mountDevtmpfs (ht : s.Final t) (hnode : s.nodes[t]?=some node)
    (hne : s.reduceNode s.devtmpfsRoot≠some t) :
    (s.setNode t { node with mountpoint := some s.devtmpfsRoot }).Settled := by
  have hlt : t < s.nodes.length := (List.getElem?_eq_some_iff.mp hnode).1
  have hrel : Relinked s (s.setNode t { node with mountpoint := some s.devtmpfsRoot }) t :=
    ⟨ht,fun i old hold hi => (List.getElem?_set_ne (Ne.symm hi)).trans hold⟩
  obtain ⟨n,d,hn⟩ := hs.reduces _ hs.device
  have hd : d≠t := by
    rintro rfl
    exact hne (reduceNode_of_reduceFrom hn)
  refine hs.relinked hrel (List.getElem?_set_self hlt) (hs.redir t node hnode) rfl
    (hrel.reduceFrom hd hn) rfl (by simp [setNode]) ?_
  intro i old hold hi
  have h := (List.getElem?_eq_some_iff.mp hold).1
  simp only [setNode,List.length_set] at h
  omega

theorem Settled.call {c : MountCall} (hc : OffDevtmpfs s c) (h : mountCall s c=some s') :
    s'.Settled := by
  cases c with
  | create parent path mode =>
    obtain ⟨⟨o,s₁⟩,hcreate,rfl⟩ := map_eq_some_iff.mp h
    exact hs.create hcreate
  | mount parent source target fsName =>
    obtain ⟨⟨ok,s₁⟩,hmount,rfl⟩ := map_eq_some_iff.mp h
    obtain ⟨e,rfl⟩ | ⟨fs,r,t,node,e,hfs,hr,ht,hnode,rfl⟩ := mount_cases hmount
    · exact hs.setErrno e
    · have hlast : s.Final t := path2node_target_final hr ht
      have hfinal : (s.setErrno e).Final t := hlast
      cases fs with
      | tmpfs => exact (hs.setErrno e).mountTmpfs hfinal hnode _ _
      | devtmpfs =>
        refine (hs.setErrno e).mountDevtmpfs hfinal hnode ?_
        have hne := hc hfs t (by rw [getNode,hr]; exact ht)
        obtain ⟨n,d,hn⟩ := hs.reduces _ hs.device
        have hd := reduceNode_of_reduceFrom hn
        intro hsame
        have hd' : (s.setErrno e).reduceNode s.devtmpfsRoot=some d := reduceNode_setErrno e hd
        rw [hd] at hne
        exact hne (hd'.symm.trans hsame)

end Vfs

theorem vfsInit_settled {s : Vfs} (h : vfsInit=some s) : s.Settled := by
  obtain ⟨s',hs,hdevice,hnodes⟩ : ∃ s', vfsInit=some s' ∧ s'.devtmpfsRoot=1 ∧
      s'.nodes=[createNode none none [] false,{ createNode (some .devtmpfs) none [] true with
        resource := some (createTmpfsResource (0o755 ||| sIfdir)) }] := ⟨_,rfl,rfl,rfl⟩
  rw [h] at hs
  cases hs
  have hlast : ∀ (i : Nat) (node : VfsNode), s.nodes[i]?=some node →
      node.redir=none ∧ node.mountpoint=none := by
    intro i node hnode
    have hmem := List.mem_of_getElem? hnode
    rw [hnodes] at hmem
    simp only [List.mem_cons,List.not_mem_nil,or_false] at hmem
    rcases hmem with rfl | rfl <;> exact ⟨rfl,rfl⟩
  refine ⟨fun i node hnode => (hlast i node hnode).1,?_,?_⟩
  · intro i hi
    have hget := List.getElem?_eq_getElem hi
    obtain ⟨h1,h2⟩ := hlast i _ hget
    exact ⟨0+1,i,Vfs.reduceFrom_last hget (by rw [VfsNode.next,h1,h2]; rfl)⟩
  · rw [hdevice,hnodes]
    decide

/-- In a run that never mounts devtmpfs where its root leads already, the
redirections have no cycle, and reduce_node comes to an end at every node. -/
theorem vfs_mounts_acyclic (s₀ s : Vfs) (hinit : vfsInit=some s₀)
    (hr : (mountSystem.restrict OffDevtmpfs).Reachable s₀ s) :
    (∀ i, ¬Relation.TransGen s.Leads i i) ∧
      ∀ i, i < s.nodes.length → ∃ n j, s.reduceFrom n i=some j := by
  have hs : s.Settled := by
    refine hr.invariant (I := Vfs.Settled) (vfsInit_settled hinit) ?_
    rintro t c t' ht ⟨hc,hstep⟩
    exact ht.call hc hstep
  exact ⟨hs.acyclic,hs.reduces⟩

def mountRoot : MountCall := .mount none none (str "/") (str "tmpfs")

def makeDev : MountCall := .create none (str "/dev") (0o755 ||| sIfdir)

def mountDev : MountCall := .mount none none (str "/dev") (str "devtmpfs")

/-- The mounts of the kernel: / leads to a node of tmpfs, /dev to the root of devtmpfs. -/
theorem vfs_mounts_acyclic_boot : ∃ s₀ s, vfsInit=some s₀ ∧
    (mountSystem.restrict OffDevtmpfs).Reachable s₀ s ∧ s.reduceNode 0=some 2 ∧
    s.reduceNode 3=some 1 ∧ (∀ i, ¬Relation.TransGen s.Leads i i) ∧
    ∀ i, i < s.nodes.length → ∃ n j, s.reduceFrom n i=some j := by
  have hrun : (vfsInit.bind (fun s₀ => (mountCall s₀ mountRoot).bind (fun s₁ =>
      (mountCall s₁ makeDev).bind (fun s₂ => (mountCall s₂ mountDev).map (fun s₃ =>
        (s₀.filesystems.get (str "tmpfs"),
          (s₂.getNode none (str "/dev")).bind (fun x => x.1),s₂.reduceNode s₂.devtmpfsRoot,
          s₃.reduceNode 0,s₃.reduceNode 3))))))=
      some (some .tmpfs,some 3,some 1,some 2,some 1) := by
    decide +kernel
  obtain ⟨s₀,hinit,hrun⟩ := bind_eq_some_iff.mp hrun
  obtain ⟨s₁,h1,hrun⟩ := bind_eq_some_iff.mp hrun
  obtain ⟨s₂,h2,hrun⟩ := bind_eq_some_iff.mp hrun
  obtain ⟨s₃,h3,hv⟩ := map_eq_some_iff.mp hrun
  simp only [Prod.mk.injEq] at hv
  obtain ⟨htmpfs,hdev,hroot,hreduce0,hreduce3⟩ := hv
  have hoff1 : OffDevtmpfs s₀ mountRoot := by
    intro hfs
    rw [htmpfs] at hfs
    cases hfs
  have hoff3 : OffDevtmpfs s₂ mountDev := by
    intro _ t ht
    rw [hdev] at ht
    cases ht
    rw [hroot]
    decide
  have hr : (mountSystem.restrict OffDevtmpfs).Reachable s₀ s₃ :=
    ((Relation.ReflTransGen.single ⟨_,hoff1,h1⟩).tail ⟨makeDev,trivial,h2⟩).tail ⟨_,hoff3,h3⟩
  exact ⟨s₀,s₃,hinit,hr,hreduce0,hreduce3,vfs_mounts_acyclic s₀ s₃ hinit hr⟩

/-- devtmpfs mounted on /dev twice: its root is mounted on itself. -/
theorem vfs_mounts_cycle : ∃ s₀ s, vfsInit=some s₀ ∧ mountSystem.Reachable s₀ s ∧
    Relation.TransGen s.Leads 1 1 ∧ ∀ n, s.reduceFrom n 1=none := by
  have hrun : (vfsInit.bind (fun s => System.exec mountCall s
      [mountRoot,makeDev,mountDev,mountDev])).bind (fun s => (s.nodes[1]?).map (fun node =>
        (node.redir,node.mountpoint)))=some (none,some 1) := by
    decide +kernel
  obtain ⟨s,hs,hrun⟩ := bind_eq_some_iff.mp hrun
  obtain ⟨s₀,hinit,hexec⟩ := bind_eq_some_iff.mp hs
  obtain ⟨node,hnode,hv⟩ := map_eq_some_iff.mp hrun
  rw [Prod.mk.injEq] at hv
  refine ⟨s₀,s,hinit,System.reachable_exec mountCall _ _ _ hexec,.single ⟨node,hnode,.inr hv.2⟩,?_⟩
  intro n
  induction n with
  | zero => rfl
  | succ n ih =>
    rw [Vfs.reduceFrom_next hnode (by rw [VfsNode.next,hv.1,hv.2]; rfl)]
    exact ih

end X64OS.Fs
