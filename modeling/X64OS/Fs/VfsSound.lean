import X64OS.Fs.VfsTree

namespace X64OS.Fs

open Framework

def VfsNode.Whole (node : VfsNode) : Prop :=
  ∃ mode fs, node.mode=some mode ∧ node.filesystem=some fs ∧ (sIsdir mode=true → node.children.cap≠0)

namespace Vfs

variable {s s' : Vfs}

def IsDir (s : Vfs) (i : Nat) : Prop :=
  ∃ node mode, s.nodes[i]?=some node ∧ node.next=none ∧ node.mode=some mode ∧ sIsdir mode=true

/-- Nodes lead to nodes, there are no symbolic links, and where a chain ends there is a whole node. -/
structure Sound (s : Vfs) : Prop where
  reduces : ∀ i < s.nodes.length, ∃ j, s.reduceNode i=some j
  child : ∀ (i : Nat) (node : VfsNode), s.nodes[i]?=some node →
    ∀ name c, node.children.get name=some c → c < s.nodes.length
  noLink : ∀ (i : Nat) (node : VfsNode), s.nodes[i]?=some node → node.symlinkTarget=none
  whole : ∀ (i : Nat) (node : VfsNode), s.nodes[i]?=some node → node.next=none → node.Whole
  root : ∃ i, s.reduceNode s.vfsRoot=some i ∧ s.IsDir i

/-- What a round of path2node can end in that is not a failure: the directory for the next name, or
the place of the last. -/
def Continues (s : Vfs) (d : Nat) (elem : Str) : Path2node ⊕ Nat → Prop
  | .inr next => s.IsDir next
  | .inl r => ∀ p, r.targetParent=some p → r.target=none → p=d ∧ r.basename=some elem

section Lookup

variable {link : Option Nat → Option Str → Option Path2node}

variable (hs : s.Sound) (hlink : ∀ parent, ∃ e, link parent none=some (.nothing e))
include hs hlink

theorem Sound.lookupElem {d : Nat} (hd : s.IsDir d) (askForDir last : Bool) (elem : Str) :
    ∃ x, s.lookupElem link askForDir last d elem=some x ∧ s.Continues d elem x := by
  obtain ⟨dir,-,hdir,hnext,-,-⟩ := hd
  have hfinal : s.Final d := ⟨dir,hdir,hnext⟩
  cases hget : dir.children.get elem with
  | none =>
    refine ⟨_,lookupElem_missing hfinal hdir hget last,?_⟩
    intro p hp _
    cases last with
    | false => cases hp
    | true =>
      cases hp
      exact ⟨rfl,rfl⟩
  | some c =>
    obtain ⟨new,hnew⟩ := hs.reduces c (hs.child d dir hdir elem c hget)
    obtain ⟨node,hnode,hlast⟩ := reduceNode_final hnew
    obtain ⟨mode,fs,hmode,-,-⟩ := hs.whole new node hnode hlast
    cases hlnk : sIslnk mode with
    | false =>
      refine ⟨_,lookupElem_child hfinal hdir hget hnew hnode hmode hlnk last,?_⟩
      cases last with
      | true =>
        intro p hp ht
        cases hfile : (askForDir && !sIsdir mode) with
        | false =>
          rw [hfile] at ht
          cases ht
        | true =>
          rw [hfile] at hp
          cases hp
          exact ⟨rfl,rfl⟩
      | false =>
        cases hisdir : sIsdir mode with
        | true => exact ⟨node,mode,hnode,hlast,hmode,hisdir⟩
        | false =>
          intro p hp
          cases hp
    | true =>
      -- a node of that type has no target, so that the lookup of it fails
      obtain ⟨e,he⟩ := hlink node.parent
      rw [Vfs.lookupElem_eq,reduceNode_self hfinal,Option.bind_some,hdir,Option.bind_some,hget]
      simp only [hnew,Option.bind_some,hnode,hmode,hlnk,hs.noLink new node hnode,he,if_true,
        Option.map_some]
      cases last with
      | false =>
        refine ⟨_,rfl,?_⟩
        intro p hp
        cases hp
      | true =>
        cases askForDir with
        | false =>
          refine ⟨_,rfl,?_⟩
          intro p _ ht
          cases ht
        | true =>
          cases hisdir : sIsdir mode with
          | true =>
            refine ⟨_,rfl,?_⟩
            intro p _ ht
            cases ht
          | false =>
            refine ⟨_,rfl,?_⟩
            intro p hp _
            cases hp
            exact ⟨rfl,rfl⟩

theorem Sound.walkNames (askForDir : Bool) {names : List Str} (hne : names≠[]) {d : Nat}
    (hd : s.IsDir d) :
    ∃ r, s.walkNames link askForDir d names=some r ∧
      ∀ p, r.targetParent=some p → r.target=none → s.IsDir p ∧ r.basename=names.getLast? := by
  induction names generalizing d with
  | nil => exact absurd rfl hne
  | cons elem rest ih =>
    obtain ⟨x,hx,hcont⟩ := hs.lookupElem hlink hd askForDir (rest=[]) elem
    rw [Vfs.walkNames,hx,Option.bind_some]
    rcases x with r | next
    · refine ⟨r,rfl,?_⟩
      intro p hp ht
      obtain ⟨rfl,hbase⟩ := hcont p hp ht
      refine ⟨hd,?_⟩
      cases lookupElem_looked hx with
      | missing _ _ _ hlast =>
        rw [of_decide_eq_true hlast]
        rfl
      | found _ _ _ _ _ _ => cases ht
      | notDirectory _ _ _ _ _ _ _ hlast _ =>
        rw [of_decide_eq_true hlast]
        rfl
      | nowhere _ => cases hp
    · cases lookupElem_looked hx with
      | onward hmore =>
        have hrest : rest≠[] := of_decide_eq_false hmore
        obtain ⟨r,hr,hlast⟩ := ih hrest hcont
        refine ⟨r,hr,?_⟩
        intro p hp ht
        rw [List.getLast?_cons_of_ne_nil hrest]
        exact hlast p hp ht

end Lookup

theorem Sound.path2node (hs : s.Sound) (path : Str) :
    ∃ r, s.path2node (some s.vfsRoot) (some path)=some r ∧
      ∀ p, r.targetParent=some p → r.target=none →
        s.IsDir p ∧ r.basename=(components path).getLast? := by
  by_cases hne : path=[]
  · rw [hne,path2node_empty]
    refine ⟨_,rfl,?_⟩
    intro p hp
    cases hp
  obtain ⟨d,hd,hdir⟩ := hs.root
  have hstart : s.startNode (some s.vfsRoot) path=some d := by
    rw [startNode,Option.getD_some,hd,Option.bind_some]
    split <;> rfl
  rw [path2node_eq s _ hne,hstart,Option.bind_some]
  by_cases hnil : components path=[]
  · rw [if_pos hnil]
    refine ⟨_,rfl,?_⟩
    intro p _ ht
    cases ht
  · rw [if_neg hnil]
    refine hs.walkNames ?_ _ hnil hdir
    obtain ⟨node,-,hnode,-⟩ := hdir
    obtain ⟨n,hn⟩ : ∃ n, s.nodes.length=n+1 :=
      ⟨s.nodes.length-1,by have := (List.getElem?_eq_some_iff.mp hnode).1; omega⟩
    rw [hn]
    exact fun parent => ⟨_,rfl⟩

variable {i : Nat} {node : VfsNode} {r : Resource}

theorem IsDir.of_keeps (h : s.IsDir i) (hkeep : ∀ (node : VfsNode), s.nodes[i]?=some node →
    ∃ node' : VfsNode, s'.nodes[i]?=some node' ∧ node'.next=node.next ∧ node'.mode=node.mode) :
    s'.IsDir i := by
  obtain ⟨node,mode,hnode,hnext,hmode,hisdir⟩ := h
  obtain ⟨node',hnode',hnext',hmode'⟩ := hkeep node hnode
  exact ⟨node',mode,hnode',hnext'.trans hnext,hmode'.trans hmode,hisdir⟩

theorem Sound.grown (hs : s.Sound) {p : Nat} {name : Str} {n : VfsNode} (hg : Grown s s' p name n)
    (hnext : n.next=none) (hchildren : ∀ name, n.children.get name=none) (hlink : n.symlinkTarget=none)
    (hwhole : n.Whole) : s'.Sound := by
  have hlen := hg.length
  -- a node of s' is the new one, or one of s with other children
  have hcases : ∀ (i : Nat) (node' : VfsNode), s'.nodes[i]?=some node' →
      (i=s.nodes.length ∧ node'=n) ∨ ∃ (node : VfsNode) (children : HashMap Nat),
        s.nodes[i]?=some node ∧ node'={ node with children := children } ∧
        children.cap=node.children.cap ∧
        ∀ k c, children.get k=some c → node.children.get k=some c ∨ c=s.nodes.length := by
    intro i node' hnode'
    by_cases hi : i < s.nodes.length
    · obtain ⟨node,hnode⟩ : ∃ node, s.nodes[i]?=some node := ⟨_,List.getElem?_eq_getElem hi⟩
      obtain ⟨children,hnew,hins⟩ := hg.old hnode
      rw [hnew] at hnode'
      cases hnode'
      refine .inr ⟨node,children,hnode,rfl,?_⟩
      by_cases hip : i=p
      · rw [if_pos hip] at hins
        refine ⟨(HashMap.insert_some hins).2.2.1,?_⟩
        intro k c hk
        rw [HashMap.get_insert hins] at hk
        cases hold : node.children.get k with
        | some c' =>
          rw [hold] at hk
          exact .inl hk
        | none =>
          rw [hold,Option.none_or] at hk
          split at hk
          · cases hk
            exact .inr rfl
          · cases hk
      · rw [if_neg hip] at hins
        rw [hins]
        exact ⟨rfl,fun k c hk => .inl hk⟩
    · have hlast : i=s.nodes.length := by
        have := (List.getElem?_eq_some_iff.mp hnode').1
        omega
      rw [hlast,hg.new] at hnode'
      cases hnode'
      exact .inl ⟨hlast,rfl⟩
  refine ⟨?_,?_,?_,?_,?_⟩
  · intro i hi
    by_cases hold : i < s.nodes.length
    · obtain ⟨j,hj⟩ := hs.reduces i hold
      exact ⟨j,hg.reduceNode hj⟩
    · obtain rfl : i=s.nodes.length := by omega
      exact ⟨_,reduceNode_self ⟨n,hg.new,hnext⟩⟩
  · intro i node' hnode' k c hk
    rw [hlen]
    obtain ⟨-,rfl⟩ | ⟨node,children,hnode,rfl,-,hget⟩ := hcases i node' hnode'
    · rw [hchildren] at hk
      cases hk
    · rcases hget k c hk with hold | rfl
      · exact Nat.lt_succ_of_lt (hs.child i node hnode k c hold)
      · exact Nat.lt_succ_self _
  · intro i node' hnode'
    obtain ⟨-,rfl⟩ | ⟨node,children,hnode,rfl,-⟩ := hcases i node' hnode'
    · exact hlink
    · exact hs.noLink i node hnode
  · intro i node' hnode' hlast
    obtain ⟨-,rfl⟩ | ⟨node,children,hnode,rfl,hcap,-⟩ := hcases i node' hnode'
    · exact hwhole
    · obtain ⟨mode,fs,hmode,hfs,hmap⟩ := hs.whole i node hnode hlast
      exact ⟨mode,fs,hmode,hfs,fun hisdir => by rw [hcap]; exact hmap hisdir⟩
  · obtain ⟨i,hi,hdir⟩ := hs.root
    refine ⟨i,by rw [hg.root]; exact hg.reduceNode hi,hdir.of_keeps (fun node hnode => ?_)⟩
    obtain ⟨children,hnode',-⟩ := hg.old hnode
    exact ⟨_,hnode',rfl,rfl⟩

theorem Sound.created (hs : s.Sound) {parent : Option Nat} {path : Str} {mode : Nat}
    (h : s.create parent path mode=some (some i,s')) :
    s'.Sound ∧ ∃ node, s'.nodes[i]?=some node ∧ node.resource=some (createTmpfsResource mode) := by
  obtain ⟨r,-,⟨ho,-⟩ | ⟨p,name,dir,fs,-,-,-,-,-,hi,hg⟩⟩ := create_cases h
  · cases ho
  · cases hi
    refine ⟨hs.grown hg rfl (fun _ => rfl) rfl ⟨mode,fs,?_,rfl,?_⟩,_,hg.new,rfl⟩
    · exact congrArg some (createTmpfsResource_stMode mode)
    · intro hisdir
      show (if sIsdir mode then 256 else 0)≠0
      rw [if_pos hisdir]
      decide

theorem setResource_node (hnode : s.nodes[i]?=some node) (hmode : node.mode=some r.stMode) {j : Nat}
    {other : VfsNode} (hother : s.nodes[j]?=some other) :
    ∃ resource, (s.setNode i { node with resource := some r }).nodes[j]?=
        some { other with resource := resource } ∧
      VfsNode.mode { other with resource := resource }=other.mode := by
  by_cases hij : i=j
  · subst hij
    cases hnode.symm.trans hother
    exact ⟨some r,List.getElem?_set_self (List.getElem?_eq_some_iff.mp hnode).1,hmode.symm⟩
  · exact ⟨other.resource,(List.getElem?_set_ne hij).trans hother,rfl⟩

theorem setResource_keepsLinks (hnode : s.nodes[i]?=some node) (hmode : node.mode=some r.stMode) :
    KeepsLinks s (s.setNode i { node with resource := some r }) := by
  intro j other hother
  obtain ⟨resource,hother',-⟩ := setResource_node hnode hmode hother
  exact ⟨_,hother',rfl⟩

theorem Sound.setResource (hs : s.Sound) (hnode : s.nodes[i]?=some node)
    (hmode : node.mode=some r.stMode) : (s.setNode i { node with resource := some r }).Sound := by
  have hlen : (s.setNode i { node with resource := some r }).nodes.length=s.nodes.length :=
    List.length_set
  have hcases : ∀ (j : Nat) (other' : VfsNode),
      (s.setNode i { node with resource := some r }).nodes[j]?=some other' →
      ∃ other resource, s.nodes[j]?=some other ∧ other'={ other with resource := resource } ∧
        other'.mode=other.mode := by
    intro j other' hother'
    have hj : j < s.nodes.length := hlen ▸ (List.getElem?_eq_some_iff.mp hother').1
    have hother := List.getElem?_eq_getElem hj
    obtain ⟨resource,hget,hm⟩ := setResource_node hnode hmode hother
    rw [hget] at hother'
    cases hother'
    exact ⟨_,resource,hother,rfl,hm⟩
  have hreduce : ∀ {j k : Nat}, s.reduceNode j=some k →
      (s.setNode i { node with resource := some r }).reduceNode j=some k :=
    (setResource_keepsLinks hnode hmode).reduceNode (Nat.le_of_eq hlen.symm)
  refine ⟨?_,?_,?_,?_,?_⟩
  · intro j hj
    obtain ⟨k,hk⟩ := hs.reduces j (hlen ▸ hj)
    exact ⟨k,hreduce hk⟩
  · intro j other' hother' name c hc
    obtain ⟨other,_,hother,rfl,-⟩ := hcases j other' hother'
    rw [hlen]
    exact hs.child j other hother name c hc
  · intro j other' hother'
    obtain ⟨other,_,hother,rfl,-⟩ := hcases j other' hother'
    exact hs.noLink j other hother
  · intro j other' hother' hlast
    obtain ⟨other,_,hother,rfl,hm⟩ := hcases j other' hother'
    obtain ⟨mode,fs,hmode',hrest⟩ := hs.whole j other hother hlast
    exact ⟨mode,fs,hm.trans hmode',hrest⟩
  · obtain ⟨k,hk,hdir⟩ := hs.root
    refine ⟨k,hreduce hk,hdir.of_keeps (fun other hother => ?_)⟩
    obtain ⟨resource,hother',hm⟩ := setResource_node hnode hmode hother
    exact ⟨_,hother',rfl,hm⟩

end Vfs

end X64OS.Fs
