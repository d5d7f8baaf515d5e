import X64OS.Fs.VfsPaths

namespace X64OS.Fs

open Framework
open Option (bind_eq_some_iff bind_some map_some)

namespace Vfs

def Reached : Path2node ⊕ Nat → Prop
  | .inl r => r.target≠none
  | .inr _ => True

variable {i : Nat} {parent : Option Nat}

namespace Grown

variable {s s' : Vfs} {p : Nat} {name : Str} {n : VfsNode}

theorem old_get (h : Grown s s' p name n) {node : VfsNode} (hnode : s.nodes[i]?=some node) :
    ∃ children, s'.nodes[i]?=some { node with children := children } ∧ ∀ elem,
      children.get elem=(node.children.get elem).or
        (if i=p ∧ name=elem then some s.nodes.length else none) := by
  obtain ⟨children,hnode',hins⟩ := h.old hnode
  refine ⟨children,hnode',?_⟩
  intro elem
  by_cases hip : i=p
  · rw [if_pos hip] at hins
    simp [HashMap.get_insert hins,hip]
  · rw [if_neg hip] at hins
    simp [hins,hip]

theorem mode (h : Grown s s' p name n) {mode : Nat}
    (hmode : (s.nodes[i]?).bind VfsNode.mode=some mode) :
    (s'.nodes[i]?).bind VfsNode.mode=some mode := by
  obtain ⟨node,hnode,hmode⟩ := bind_eq_some_iff.mp hmode
  obtain ⟨children,hnode',-⟩ := h.old_get hnode
  rw [hnode']
  exact hmode

variable {askForDir : Bool} {current : Nat}
  {link link' : Option Nat → Option Str → Option Path2node}

variable (h : Grown s s' p name n)
include h

/-- What a round of path2node found, it still finds. -/
theorem lookupElem (hlink : ∀ a b r, link a b=some r → r.target≠none → link' a b=some r)
    {last : Bool} {elem : Str} {x : Path2node ⊕ Nat}
    (hx : s.lookupElem link askForDir last current elem=some x) (hr : Reached x) :
    s'.lookupElem link' askForDir last current elem=some x := by
  simp only [Vfs.lookupElem_eq,bind_eq_some_iff] at hx
  obtain ⟨d,hd,dir,hdir,hx⟩ := hx
  obtain ⟨children,hdir',hget'⟩ := h.old_get hdir
  rw [Vfs.lookupElem_eq,h.reduceNode hd,bind_some,hdir',bind_some]
  dsimp only
  rw [hget']
  cases hget : dir.children.get elem with
  | none =>
    simp only [hget] at hx
    cases last <;> cases hx <;> exact absurd rfl hr
  | some child =>
    simp only [hget,bind_eq_some_iff] at hx
    obtain ⟨new,hnew,node,hnode,hx⟩ := hx
    obtain ⟨children',hnode',-⟩ := h.old_get hnode
    rw [Option.some_or]
    dsimp only
    rw [h.reduceNode hnew,bind_some,hnode',bind_some]
    cases last with
    | true => exact hx
    | false =>
      simp only [Bool.false_eq_true,if_false,bind_eq_some_iff] at hx
      obtain ⟨mode,hmode,next,hnext,hx⟩ := hx
      have hmode' : VfsNode.mode { node with children := children' }=some mode := hmode
      cases htarget : next.1 with
      | none =>
        rw [htarget] at hx
        cases hx
        exact absurd rfl hr
      | some t =>
        have hnext' : (if sIslnk mode=true then
            (link' node.parent node.symlinkTarget).map (fun r => (r.target,r.errno))
            else some (some new,none))=some next := by
          split at hnext
          · rename_i hlnk
            obtain ⟨r,hlinked,rfl⟩ := Option.map_eq_some_iff.mp hnext
            have hsome : r.target≠none := fun hn => Option.some_ne_none t (htarget.symm.trans hn)
            rw [if_pos hlnk,hlink _ _ r hlinked hsome]
            rfl
          · rename_i hlnk
            rw [if_neg hlnk]
            exact hnext
        simp only [htarget,Option.map_eq_some_iff] at hx
        obtain ⟨tmode,htmode,hx⟩ := hx
        have htmode' := h.mode htmode
        simp only [Bool.false_eq_true,if_false,hmode',bind_some,hnext',htarget,htmode',
          map_some,hx]

theorem walkNames (hlink : ∀ a b r, link a b=some r → r.target≠none → link' a b=some r)
    {names : List Str} {r : Path2node} (hw : s.walkNames link askForDir current names=some r)
    (hr : r.target≠none) : s'.walkNames link' askForDir current names=some r := by
  induction names generalizing current with
  | nil => cases hw
  | cons elem names ih =>
    rw [Vfs.walkNames,bind_eq_some_iff] at hw
    obtain ⟨x,hx,hw⟩ := hw
    rw [Vfs.walkNames]
    cases x with
    | inl r' =>
      cases hw
      rw [h.lookupElem hlink hx hr,bind_some]
    | inr next =>
      rw [h.lookupElem hlink hx trivial,bind_some]
      exact ih hw

theorem startNode {path : Str} (hi : s.startNode parent path=some i) :
    s'.startNode parent path=some i := by
  rw [Vfs.startNode,bind_eq_some_iff] at hi
  obtain ⟨first,hfirst,hi⟩ := hi
  rw [Vfs.startNode,h.root,h.reduceNode hfirst,bind_some]
  split
  · rename_i hhead
    rw [if_pos hhead] at hi
    exact h.reduceNode hi
  · rename_i hhead
    rw [if_neg hhead] at hi
    exact hi

theorem path2nodeLinks {k m : Nat} (hkm : k ≤ m) {path : Option Str} {r : Path2node}
    (hp : s.path2nodeLinks k parent path=some r) (hr : r.target≠none) :
    s'.path2nodeLinks m parent path=some r := by
  induction k generalizing m parent path r with
  | zero => cases hp
  | succ k ih =>
    obtain ⟨m,rfl⟩ : ∃ j, m=j+1 := ⟨m-1,by omega⟩
    cases path with
    | none =>
      cases hp
      exact absurd rfl hr
    | some path =>
      by_cases hne : path=[]
      · rw [hne] at hp
        cases hp
        exact absurd rfl hr
      · rw [path2nodeLinks_eq s k parent hne,bind_eq_some_iff] at hp
        obtain ⟨current,hstart,hp⟩ := hp
        rw [path2nodeLinks_eq s' m parent hne,h.startNode hstart,bind_some]
        split
        · rename_i hnil
          rw [if_pos hnil] at hp
          exact hp
        · rename_i hnil
          rw [if_neg hnil] at hp
          exact h.walkNames (fun a b r hlink hr => ih (by omega) hlink hr) hp hr

theorem lookupElem_missed {mode : Nat} (hnext : n.next=none) (hmode : n.mode=some mode)
    {last : Bool} {elem : Str} {e : Option Errno}
    (hx : s.lookupElem link askForDir last current elem=some (.inl ⟨some p,none,some name,e⟩)) :
    s'.lookupElem link' askForDir last current elem=some (.inl
      (if e=some .enoent ∧ (askForDir=true → sIsdir mode=true) then
        ⟨some p,some s.nodes.length,some name,none⟩
      else ⟨some p,none,some name,some .enotdir⟩)) := by
  generalize hr : (Sum.inl ⟨some p,none,some name,e⟩ : Path2node ⊕ Nat)=x at hx
  cases lookupElem_looked hx with
  | missing hp hdir hget hlast =>
    cases hr
    obtain ⟨children,hdir',hget'⟩ := h.old_get hdir
    have hnew : s'.reduceNode s.nodes.length=some s.nodes.length := reduceNode_self ⟨n,h.new,hnext⟩
    have hchild : children.get name=some s.nodes.length := by
      rw [hget',hget,Option.none_or,if_pos ⟨rfl,rfl⟩]
    simp only [Vfs.lookupElem_eq,h.reduceNode hp,bind_some,hdir',hchild,hnew,h.new,hlast,if_true,
      hmode,map_some]
    cases askForDir <;> cases hd : sIsdir mode <;> simp
  | @notDirectory _ _ _ mode' _ node hp hdir hget hnew hnode hmode' hfile hlast hask =>
    cases hr
    obtain ⟨children,hdir',hget'⟩ := h.old_get hdir
    obtain ⟨children',hnode',-⟩ := h.old_get hnode
    have hchild := hget' name
    rw [hget,Option.some_or] at hchild
    have hmode₁ : VfsNode.mode { node with children := children' }=some mode' := hmode'
    simp only [Vfs.lookupElem_eq,h.reduceNode hp,bind_some,hdir',hchild,h.reduceNode hnew,hnode',
      hlast,hask,if_true,hmode₁,map_some,hfile]
    simp
  | found => cases hr
  | nowhere => cases hr
  | onward => cases hr

theorem walkNames_missed {mode : Nat} (hnext : n.next=none) (hmode : n.mode=some mode)
    (hlink : ∀ a b r, link a b=some r → r.target≠none → link' a b=some r) {names : List Str}
    {e : Option Errno}
    (hw : s.walkNames link askForDir current names=some ⟨some p,none,some name,e⟩) :
    s'.walkNames link' askForDir current names=some
      (if e=some .enoent ∧ (askForDir=true → sIsdir mode=true) then
        ⟨some p,some s.nodes.length,some name,none⟩
      else ⟨some p,none,some name,some .enotdir⟩) := by
  induction names generalizing current with
  | nil => cases hw
  | cons elem names ih =>
    rw [Vfs.walkNames,bind_eq_some_iff] at hw
    obtain ⟨x,hx,hw⟩ := hw
    rw [Vfs.walkNames]
    cases x with
    | inl r =>
      cases hw
      rw [h.lookupElem_missed hnext hmode hx,bind_some]
    | inr next =>
      rw [h.lookupElem hlink hx trivial,bind_some]
      exact ih hw

end Grown

/-- After VFS::Create has made a node, its path leads to it, unless something that
is no directory had the name already, or the node is none and the path ends in a slash. -/
theorem create_path2node {s s' : Vfs} {path : Str} {mode : Nat}
    (h : s.create parent path mode=some (some i,s')) :
    ∃ p name e, s.path2node parent (some path)=some ⟨some p,none,some name,e⟩ ∧
      s'.path2node parent (some path)=some
        (if e=some .enoent ∧ (path.getLast?=some slash → sIsdir mode=true) then
          ⟨some p,some i,some name,none⟩
        else ⟨some p,none,some name,some .enotdir⟩) := by
  obtain ⟨⟨tp,t,b,e⟩,hr,⟨hnone,-⟩ | ⟨p,name,dir,fs,rfl,rfl,rfl,hdir,hfs,ho,hg⟩⟩ := create_cases h
  · cases hnone
  cases ho
  refine ⟨p,name,e,hr,?_⟩
  have hne : path≠[] := by
    intro hnil
    rw [hnil,path2node_empty] at hr
    cases hr
  rw [path2node_eq s parent hne,bind_eq_some_iff] at hr
  obtain ⟨current,hstart,hr⟩ := hr
  rw [path2node_eq s' parent hne,hg.startNode hstart,bind_some]
  split
  · rename_i hnil
    rw [if_pos hnil] at hr
    cases hr
  · rename_i hnil
    rw [if_neg hnil] at hr
    have hlen : s.nodes.length ≤ s'.nodes.length := by
      rw [hg.length]
      exact Nat.le_succ _
    have hmode : VfsNode.mode { createNode (some fs) (some p) name (sIsdir mode) with
        resource := some (createTmpfsResource mode) }=some mode := by
      simp [VfsNode.mode]
    have hw := hg.walkNames_missed rfl hmode
      (fun a b r hlink hr => hg.path2nodeLinks hlen hlink hr) hr
    rw [hw]
    simp only [decide_eq_true_eq]

end Vfs

end X64OS.Fs
