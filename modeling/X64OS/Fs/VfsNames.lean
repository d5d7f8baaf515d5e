import X64OS.Fs.VfsTree

namespace X64OS.Fs

open Framework
open Option (map_eq_some_iff bind_eq_some_iff bind_some)

inductive NameCall where
  | create (parent : Option Nat) (path : Str) (mode : Nat)
  | addDevice (device : Resource) (name : Str)

def nameCall (s : Vfs) : NameCall → Option Vfs
  | .create parent path mode => (s.create parent path mode).map (fun x => x.2)
  | .addDevice device name => (s.devtmpfsAddDevice device name).map (fun x => x.2)

/-- No create with a slash after the name of a file, no device whose name is empty or has a slash in
it, and no name that does not fit its field. -/
def PlainName (s : Vfs) : NameCall → Prop
  | .create parent path _ => ¬s.TrailsFile parent path ∧
    ∀ name, (components path).getLast?=some name → name.length ≤ hashmapKeyDataMax
  | .addDevice _ name => name≠[] ∧ slash∉name ∧ name.length ≤ hashmapKeyDataMax

/-- No node has two children of the same name, and nothing is mounted on the
root of devtmpfs. -/
structure Vfs.NamesDistinct (s : Vfs) : Prop where
  children : ∀ (i : Nat) (node : VfsNode), s.nodes[i]?=some node → node.children.Distinct
  device : s.Final s.devtmpfsRoot

namespace Vfs

variable {s s' : Vfs}
variable {name : Str}

theorem NamesDistinct.grown (hs : s.NamesDistinct) {p : Nat} {n dir : VfsNode}
    (hg : Grown s s' p name n) (hdir : s.nodes[p]?=some dir) (hget : dir.children.get name=none)
    (hn : n.children.Distinct) : s'.NamesDistinct := by
  refine ⟨?_,?_⟩
  · intro i node hnode
    by_cases hi : i=s.nodes.length
    · rw [hi,hg.new] at hnode
      cases hnode
      exact hn
    · have hlt : i < s.nodes.length := by
        have h := (List.getElem?_eq_some_iff.mp hnode).1
        rw [hg.length] at h
        omega
      obtain ⟨old,hold⟩ : ∃ old,s.nodes[i]?=some old := ⟨_,List.getElem?_eq_getElem hlt⟩
      obtain ⟨children,hnode',hins⟩ := hg.old hold
      rw [hnode'] at hnode
      cases hnode
      by_cases hip : i=p
      · rw [if_pos hip] at hins
        rw [hip,hdir,Option.some.injEq] at hold
        rw [← hold] at hins
        exact (hs.children p dir hdir).insert hget hins
      · rw [if_neg hip] at hins
        rw [hins]
        exact hs.children i _ hold
  · obtain ⟨node,hnode,hnext⟩ := hs.device
    obtain ⟨children,hnode',-⟩ := hg.old hnode
    rw [hg.device]
    exact ⟨_,hnode',hnext⟩

/-- Unless it is asked for a directory and finds a file, path2node returns a
parent without the child only if there is no such child. -/
theorem path2node_missing {parent : Option Nat} {path : Str} {p : Nat} {r : Path2node}
    (htrail : ¬s.TrailsFile parent path) (hr : s.path2node parent (some path)=some r)
    (hp : r.targetParent=some p) (hnone : r.target=none) (hname : r.basename=some name) :
    ∃ dir,s.nodes[p]?=some dir ∧ dir.children.get name=none := by
  rcases path2node_walked hr with ⟨i,-,rfl⟩ | hw
  · cases hnone
  · cases hw with
    | nowhere => cases hp
    | missing hfinal hdir hget _ =>
      cases hp
      cases hname
      exact ⟨_,hdir,hget⟩
    | found => cases hnone
    | notDirectory hask hplain _ hnode hmode hfile _ =>
      exact absurd ⟨by simpa using hask,_,_,_,hplain,hnode,hmode,hfile⟩ htrail

variable (hs : s.NamesDistinct)
include hs

theorem NamesDistinct.create {parent : Option Nat} {path : Str} {mode : Nat} {o : Option Nat}
    (htrail : ¬s.TrailsFile parent path) (h : s.create parent path mode=some (o,s')) :
    s'.NamesDistinct := by
  obtain ⟨r,hr,⟨-,⟨e,rfl⟩,-⟩ | ⟨p,name,dir,fs,hp,hnone,hname,-,-,-,hg⟩⟩ := create_cases h
  · exact ⟨hs.children,hs.device⟩
  · obtain ⟨dir,hdir,hget⟩ := path2node_missing htrail hr hp hnone hname
    exact hs.grown hg hdir hget (.init _)

theorem NamesDistinct.getNode_device (hne : name≠[]) (hslash : slash∉name)
    (h : s.getNode (some s.devtmpfsRoot) name=some (none,s')) :
    ∃ root,s.nodes[s.devtmpfsRoot]?=some root ∧ root.children.get name=none := by
  obtain ⟨r,hr,he⟩ := map_eq_some_iff.mp h
  rw [Prod.mk.injEq] at he
  have hhead : name.head?≠some slash := fun h => hslash (List.mem_of_head? h)
  have hlast : name.getLast?≠some slash := fun h => hslash (List.mem_of_getLast? h)
  have hstart : s.startNode (some s.devtmpfsRoot) name=some s.devtmpfsRoot := by
    rw [startNode,Option.getD_some,reduceNode_self hs.device,bind_some,if_neg hhead]
  rw [path2node_eq s _ hne,hstart,bind_some,components_name hne hslash,
    if_neg (List.cons_ne_nil _ _),decide_eq_false hlast,walkNames] at hr
  obtain ⟨x,hx,hr⟩ := bind_eq_some_iff.mp hr
  cases lookupElem_looked hx with
  | missing hp hdir hget _ =>
    rw [reduceNode_self hs.device] at hp
    cases hp
    exact ⟨_,hdir,hget⟩
  | found =>
    cases hr
    cases he.1
  | notDirectory _ _ _ _ _ _ _ _ hask => cases hask
  | nowhere h => cases h
  | onward h => cases h

theorem NamesDistinct.addDevice {device : Resource} {o : Bool} (hne : name≠[]) (hslash : slash∉name)
    (h : s.devtmpfsAddDevice device name=some (o,s')) : s'.NamesDistinct := by
  simp only [devtmpfsAddDevice,bind_eq_some_iff] at h
  obtain ⟨⟨found,s₁⟩,hget,h⟩ := h
  have hs₁ : ∃ e,s₁=s.setErrno e := by
    obtain ⟨r,-,he⟩ := map_eq_some_iff.mp hget
    cases he
    exact ⟨_,rfl⟩
  obtain ⟨e,rfl⟩ := hs₁
  cases found with
  | some i =>
    cases h
    exact ⟨hs.children,hs.device⟩
  | none =>
    obtain ⟨root,hroot,hfree⟩ := hs.getNode_device hne hslash hget
    obtain ⟨s₂,hins,he⟩ := map_eq_some_iff.mp h
    cases he
    have hs' : (s.setErrno e).NamesDistinct := ⟨hs.children,hs.device⟩
    have hg := insertChild_grown (s := s.setErrno e) (List.getElem?_eq_some_iff.mp hroot).1 hins
    exact hs'.grown hg hroot hfree (.init _)

theorem NamesDistinct.call {c : NameCall} (hc : PlainName s c) (h : nameCall s c=some s') :
    s'.NamesDistinct := by
  cases c with
  | create parent path mode =>
    obtain ⟨⟨o,s₁⟩,hcreate,rfl⟩ := map_eq_some_iff.mp h
    exact hs.create hc.1 hcreate
  | addDevice device name =>
    obtain ⟨⟨o,s₁⟩,hadd,rfl⟩ := map_eq_some_iff.mp h
    exact hs.addDevice hc.1 hc.2.1 hadd

end Vfs

theorem vfsBoot_namesDistinct {s : Vfs} (h : vfsBoot=some s) : s.NamesDistinct := by
  obtain ⟨s',children,hs,hins,-,hdevice,-,-,hnodes⟩ := vfsBoot_eq
  rw [h] at hs
  cases hs
  refine ⟨?_,?_⟩
  · intro i node hnode
    have hmem := List.mem_of_getElem? hnode
    rw [hnodes] at hmem
    simp only [List.mem_cons,List.not_mem_nil,or_false] at hmem
    rcases hmem with rfl | rfl | rfl | rfl
    · exact .init _
    · exact .init _
    · exact (HashMap.Distinct.init 256).insert (HashMap.get_init _ _) hins
    · exact .init _
  · rw [hdevice]
    exact ⟨_,by rw [hnodes]; rfl,rfl⟩

def nameSystem : System Vfs NameCall := .ofPartial nameCall

/-- In a run of plain names no node ever has two children of the same name. -/
theorem vfs_names_distinct (s₀ s : Vfs) (hboot : vfsBoot=some s₀)
    (hr : (nameSystem.restrict PlainName).Reachable s₀ s) (i : Nat) (node : VfsNode)
    (hnode : s.nodes[i]?=some node) : (node.children.entries.map (fun x => x.key)).Nodup := by
  have hs : s.NamesDistinct := by
    refine hr.invariant (I := Vfs.NamesDistinct) (vfsBoot_namesDistinct hboot) ?_
    rintro t c t' ht ⟨hc,hstep⟩
    exact ht.call hc hstep
  exact (hs.children i node hnode).entries

/-- A file in the root and a device. -/
theorem vfs_names_distinct_plain : ∃ s₀ s root, vfsBoot=some s₀ ∧
    (nameSystem.restrict PlainName).Reachable s₀ s ∧ s.nodes[2]?=some root ∧
    root.children.entries.map (fun x => x.key)=[str "a",str "dev"] ∧
    (root.children.entries.map (fun x => x.key)).Nodup := by
  obtain ⟨s₀,-,hboot,-⟩ := vfsBoot_eq
  have hrun : (vfsBoot.bind (fun s => (nameCall s (.create none (str "/a") sIfreg)).bind (fun s =>
      (nameCall s (.addDevice (createTmpfsResource 0) (str "tty0"))).bind (fun s =>
        (s.nodes[2]?).map (fun root => root.children.entries.map (fun x => x.key))))))=
      some [str "a",str "dev"] := by
    decide +kernel
  rw [hboot,bind_some] at hrun
  obtain ⟨s₁,h1,hrun⟩ := bind_eq_some_iff.mp hrun
  obtain ⟨s₂,h2,hrun⟩ := bind_eq_some_iff.mp hrun
  obtain ⟨root,hroot,hkeys⟩ := map_eq_some_iff.mp hrun
  have htrail : PlainName s₀ (.create none (str "/a") sIfreg) := by
    refine ⟨?_,?_⟩
    · rintro ⟨hlast,-⟩
      exact absurd hlast (by decide)
    · intro name hname
      have ha : (components (str "/a")).getLast?=some (str "a") := by decide
      cases ha.symm.trans hname
      decide
  have hname : PlainName s₁ (.addDevice (createTmpfsResource 0) (str "tty0")) :=
    ⟨by decide,by decide,by decide⟩
  have hr : (nameSystem.restrict PlainName).Reachable s₀ s₂ :=
    (Relation.ReflTransGen.single ⟨_,htrail,h1⟩).tail ⟨_,hname,h2⟩
  exact ⟨s₀,s₂,root,hboot,hr,hroot,hkeys,vfs_names_distinct s₀ s₂ hboot hr 2 root hroot⟩

/-- The second create finds the file, where the slash asks for a directory, and
makes another one; the second device of no name finds nothing. -/
theorem vfs_names_twice : ∃ s₀ s root t devices, vfsBoot=some s₀ ∧
    nameSystem.Reachable s₀ s ∧ s.nodes[2]?=some root ∧
    ¬(root.children.entries.map (fun x => x.key)).Nodup ∧
    nameSystem.Reachable s₀ t ∧ t.nodes[1]?=some devices ∧
    ¬(devices.children.entries.map (fun x => x.key)).Nodup := by
  obtain ⟨s₀,-,hboot,-⟩ := vfsBoot_eq
  have hfiles : (vfsBoot.bind (fun s => System.exec nameCall s
      [.create none (str "/foo/") sIfreg,.create none (str "/foo/") sIfreg])).bind (fun s =>
        (s.nodes[2]?).map (fun root => root.children.entries.map (fun x => x.key)))=
      some [str "foo",str "foo",str "dev"] := by
    decide +kernel
  have hdevices : (vfsBoot.bind (fun s => System.exec nameCall s
      [.addDevice (createTmpfsResource 0) [],.addDevice (createTmpfsResource 0) []])).bind (fun s =>
        (s.nodes[1]?).map (fun root => root.children.entries.map (fun x => x.key)))=
      some [[],[]] := by
    decide +kernel
  rw [hboot,bind_some] at hfiles hdevices
  obtain ⟨s,hs,hfiles⟩ := bind_eq_some_iff.mp hfiles
  obtain ⟨root,hroot,hkeys⟩ := map_eq_some_iff.mp hfiles
  obtain ⟨t,ht,hdevices⟩ := bind_eq_some_iff.mp hdevices
  obtain ⟨devices,hdev,hkeys'⟩ := map_eq_some_iff.mp hdevices
  refine ⟨s₀,s,root,t,devices,hboot,System.reachable_exec nameCall _ _ _ hs,hroot,?_,
    System.reachable_exec nameCall _ _ _ ht,hdev,?_⟩
  · rw [hkeys]
    decide
  · rw [hkeys']
    decide

end X64OS.Fs
