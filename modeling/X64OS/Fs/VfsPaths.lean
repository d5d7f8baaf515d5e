import Mathlib.Data.List.DropRight
import X64OS.Fs.Vfs

namespace X64OS.Fs

open Framework
open Option (map_eq_some_iff bind_eq_some_iff bind_some map_some)

def components (path : Str) : List Str := (path.splitOn slash).filter (fun c => c≠[])

theorem components_append (xs ys : Str) :
    components (xs++slash::ys)=components xs++components ys := by
  rw [components,List.splitOn_append_cons_self,List.filter_append]
  rfl

theorem components_name {elem : Str} (hne : elem≠[]) (h : slash∉elem) : components elem=[elem] := by
  rw [components,List.splitOn_eq_singleton h]
  simp [hne]

theorem components_dropSlashes (path : Str) :
    components (path.dropWhile (fun c => c=slash))=components path := by
  induction path with
  | nil => rfl
  | cons c path ih =>
    by_cases hc : c=slash
    · have hnil : components ([] : Str)=[] := rfl
      have h := components_append [] path
      rw [hnil,List.nil_append,List.nil_append] at h
      rw [List.dropWhile_cons_of_pos (by simpa using hc),ih,hc,h]
    · rw [List.dropWhile_cons_of_neg (by simpa using hc)]

variable {path name : Str} {askForDir : Bool} {current : Nat}
  {link : Option Nat → Option Str → Option Path2node} {s : Vfs}

theorem components_cons (hne : path≠[]) (hhead : path.head?≠some slash) :
    components path=path.takeWhile (fun c => c≠slash)::
      components ((path.dropWhile (fun c => c≠slash)).dropWhile (fun c => c=slash)) := by
  have hname : path.takeWhile (fun c => c≠slash)≠[] := by
    cases path with
    | nil => exact absurd rfl hne
    | cons c path =>
      have hc : c≠slash := by simpa using hhead
      simp [hc]
  have hmem : slash∉path.takeWhile (fun c => c≠slash) := by
    intro h
    have hall : (path.takeWhile (fun c => decide (c≠slash))).all (fun c => decide (c≠slash)) :=
      List.all_takeWhile
    simpa using List.all_eq_true.mp hall slash h
  rw [components_dropSlashes]
  conv_lhs => rw [← List.takeWhile_append_dropWhile (p := fun c => decide (c≠slash)) (l := path)]
  cases hrest : path.dropWhile (fun c => decide (c≠slash)) with
  | nil =>
    rw [List.append_nil,components_name hname hmem]
    rfl
  | cons c rest =>
    have hc : c=slash := by
      have h := List.head?_dropWhile_not (fun c => decide (c≠slash)) path
      rw [hrest] at h
      simpa using h
    have htail := components_append [] rest
    have hnil : components ([] : Str)=[] := rfl
    rw [hnil,List.nil_append,List.nil_append] at htail
    rw [hc,components_append,components_name hname hmem,htail]
    rfl

theorem length_le_of_mem_components (h : name∈components path) : name.length ≤ path.length := by
  generalize hn : path.length=n
  induction n using Nat.strongRecOn generalizing path with
  | ind n ih =>
    by_cases hne : path=[]
    · rw [hne] at h
      cases h
    by_cases hhead : path.head?=some slash
    · cases path with
      | nil => exact absurd rfl hne
      | cons c path =>
        have hc : c=slash := by simpa using hhead
        have hcomp : components (c::path)=components path := by
          rw [hc]
          exact components_append [] path
        rw [hcomp] at h
        rw [List.length_cons] at hn
        exact Nat.le_of_lt (Nat.lt_of_le_of_lt (ih path.length (by omega) h rfl) (by omega))
    · rw [components_cons hne hhead,components_dropSlashes,List.mem_cons] at h
      rcases h with rfl | h
      · rw [← hn]
        exact (List.takeWhile_sublist _).length_le
      · have hlt : (path.dropWhile (fun c => c≠slash)).length < n := by
          cases path with
          | nil => exact absurd rfl hne
          | cons c path =>
            have hc : c≠slash := by simpa using hhead
            rw [List.dropWhile_cons_of_pos (by simpa using hc),← hn,List.length_cons]
            exact Nat.lt_succ_of_le (List.dropWhile_sublist _).length_le
        exact Nat.le_of_lt (Nat.lt_of_le_of_lt (ih _ hlt h rfl) hlt)

theorem components_eq_nil (h : path.head?≠some slash) : components path=[] ↔ path=[] := by
  constructor
  · intro hc
    by_contra hne
    rw [components_cons hne h] at hc
    cases hc
  · intro he
    rw [he]
    rfl

theorem head?_dropSlashes (path : Str) : (path.dropWhile (fun c => c=slash)).head?≠some slash := by
  intro h
  have hn := List.head?_dropWhile_not (fun c => decide (c=slash)) path
  rw [h] at hn
  simp at hn

def stripSlashes (path : Str) : Str := path.rdropWhile (fun c => c=slash)

theorem stripSlashes_getLast? (path : Str) : (stripSlashes path).getLast?≠some slash := by
  intro h
  by_cases hne : stripSlashes path=[]
  · rw [hne] at h
    cases h
  · have hlast := List.rdropWhile_last_not (fun c => decide (c=slash)) path hne
    rw [List.getLast?_eq_getLast_of_ne_nil hne] at h
    simp only [stripSlashes,Option.some.injEq] at h
    rw [h] at hlast
    simp at hlast

theorem components_stripSlashes (path : Str) : components (stripSlashes path)=components path := by
  induction path using List.reverseRecOn with
  | nil => rfl
  | append_singleton path c ih =>
    by_cases hc : c=slash
    · rw [stripSlashes,List.rdropWhile_concat_pos _ _ _ (by simpa using hc),hc,components_append]
      exact ih.trans (List.append_nil _).symm
    · rw [stripSlashes,List.rdropWhile_concat_neg _ _ _ (by simpa using hc)]

theorem stripSlashes_head? {path : Str} (hne : stripSlashes path≠[]) :
    (stripSlashes path).head?=path.head? := by
  obtain ⟨tail,htail⟩ : stripSlashes path<+:path := List.rdropWhile_prefix _ _
  conv_rhs => rw [← htail]
  exact (List.head?_append_of_ne_nil _ hne).symm

namespace Vfs

inductive Looked (s : Vfs) (askForDir last : Bool) (current : Nat) (elem : Str) :
    Path2node ⊕ Nat → Prop
  | missing {p : Nat} {dir : VfsNode} (hp : s.reduceNode current=some p)
      (hdir : s.nodes[p]?=some dir) (hget : dir.children.get elem=none) (hlast : last=true) :
      Looked s askForDir last current elem (.inl ⟨some p,none,some elem,some .enoent⟩)
  | found {p child new : Nat} {dir node : VfsNode} (hp : s.reduceNode current=some p)
      (hdir : s.nodes[p]?=some dir) (hget : dir.children.get elem=some child)
      (hnew : s.reduceNode child=some new) (hnode : s.nodes[new]?=some node) (hlast : last=true) :
      Looked s askForDir last current elem (.inl ⟨some p,some new,some elem,none⟩)
  | notDirectory {p child new mode : Nat} {dir node : VfsNode} (hp : s.reduceNode current=some p)
      (hdir : s.nodes[p]?=some dir) (hget : dir.children.get elem=some child)
      (hnew : s.reduceNode child=some new) (hnode : s.nodes[new]?=some node)
      (hmode : node.mode=some mode) (hfile : sIsdir mode=false) (hlast : last=true)
      (hask : askForDir=true) :
      Looked s askForDir last current elem (.inl ⟨some p,none,some elem,some .enotdir⟩)
  | nowhere {e : Option Errno} (hlast : last=false) :
      Looked s askForDir last current elem (.inl (.nothing e))
  | onward {next : Nat} (hlast : last=false) : Looked s askForDir last current elem (.inr next)

theorem lookupElem_looked {last : Bool} {elem : Str} {x : Path2node ⊕ Nat}
    (h : s.lookupElem link askForDir last current elem=some x) :
    Looked s askForDir last current elem x := by
  simp only [lookupElem_eq,bind_eq_some_iff] at h
  obtain ⟨p,hp,dir,hdir,h⟩ := h
  cases hget : dir.children.get elem with
  | none =>
    simp only [hget] at h
    cases last <;> cases h
    · exact .nowhere rfl
    · exact .missing hp hdir hget rfl
  | some child =>
    simp only [hget,bind_eq_some_iff] at h
    obtain ⟨new,hnew,node,hnode,h⟩ := h
    cases last with
    | false =>
      simp only [Bool.false_eq_true,if_false,bind_eq_some_iff] at h
      obtain ⟨mode,-,next,-,h⟩ := h
      cases hn : next.1 with
      | none =>
        simp only [hn] at h
        cases h
        exact .nowhere rfl
      | some n =>
        simp only [hn,map_eq_some_iff] at h
        obtain ⟨m,-,rfl⟩ := h
        split
        · exact .onward rfl
        · exact .nowhere rfl
    | true =>
      simp only [if_true] at h
      cases askForDir with
      | false =>
        cases h
        exact .found hp hdir hget hnew hnode rfl
      | true =>
        simp only [if_true,map_eq_some_iff] at h
        obtain ⟨mode,hmode,rfl⟩ := h
        cases hm : sIsdir mode with
        | true => exact .found hp hdir hget hnew hnode rfl
        | false => exact .notDirectory hp hdir hget hnew hnode hmode hm rfl rfl

/-- The loop of path2node on the names of a path. -/
def walkNames (s : Vfs) (link : Option Nat → Option Str → Option Path2node) (askForDir : Bool) :
    Nat → List Str → Option Path2node
  | _,[] => none
  | current,elem::rest =>
    (s.lookupElem link askForDir (rest=[]) current elem).bind (fun x =>
      match x with
      | .inl r => some r
      | .inr next => s.walkNames link askForDir next rest)

theorem walk_eq (s : Vfs) (link : Option Nat → Option Str → Option Path2node) (askForDir : Bool)
    {n : Nat} {rest : Str} (hlen : rest.length ≤ n) (hne : rest≠[])
    (hhead : rest.head?≠some slash) :
    s.walk link askForDir n current rest=s.walkNames link askForDir current (components rest) := by
  induction n generalizing current rest with
  | zero =>
    cases rest with
    | nil => exact absurd rfl hne
    | cons c rest => cases hlen
  | succ n ih =>
    have hhead' := head?_dropSlashes (rest.dropWhile (fun c => c≠slash))
    have hshort : ((rest.dropWhile (fun c => c≠slash)).dropWhile (fun c => c=slash)).length ≤ n := by
      cases rest with
      | nil => exact absurd rfl hne
      | cons c rest =>
        have hc : c≠slash := by simpa using hhead
        rw [List.dropWhile_cons_of_pos (by simpa using hc)]
        have h1 := (List.dropWhile_sublist (fun c => decide (c=slash))
          (l := rest.dropWhile (fun c => decide (c≠slash)))).length_le
        have h2 := (List.dropWhile_sublist (fun c => decide (c≠slash)) (l := rest)).length_le
        rw [List.length_cons] at hlen
        omega
    have hlast := components_eq_nil hhead'
    rw [walk_succ,components_cons hne hhead,walkNames]
    simp only [hlast]
    cases hx : s.lookupElem link askForDir
      (decide ((rest.dropWhile (fun c => c≠slash)).dropWhile (fun c => c=slash)=[]))
      current (rest.takeWhile (fun c => c≠slash)) with
    | none => rfl
    | some x =>
      rcases x with r | next
      · rfl
      · -- there is a next node only if there is a next name
        cases lookupElem_looked hx with
        | onward hmore => exact ih hshort (by simpa using hmore) hhead'

def startNode (s : Vfs) (parent : Option Nat) (path : Str) : Option Nat :=
  (s.reduceNode (parent.getD s.vfsRoot)).bind (fun current =>
    if path.head?=some slash then s.reduceNode s.vfsRoot else some current)

theorem path2nodeLinks_eq (s : Vfs) (n : Nat) (parent : Option Nat) (hne : path≠[]) :
    s.path2nodeLinks (n+1) parent (some path)=(s.startNode parent path).bind (fun current =>
      if components path=[] then some ⟨some current,some current,some [slash],none⟩
      else s.walkNames (s.path2nodeLinks n) (path.getLast?=some slash) current
        (components path)) := by
  have hhead := head?_dropSlashes path
  have hnil := components_eq_nil hhead
  rw [components_dropSlashes] at hnil
  rw [path2nodeLinks_succ,startNode]
  simp only [hne,if_false,Option.bind_assoc]
  congr 1
  funext first
  congr 1
  funext current
  by_cases hrest : path.dropWhile (fun c => c=slash)=[]
  · rw [if_pos hrest,if_pos (hnil.mpr hrest)]
  · rw [if_neg hrest,if_neg (fun h => hrest (hnil.mp h)),walk_eq _ _ _ le_rfl hrest hhead,
      components_dropSlashes]

theorem path2node_eq (s : Vfs) (parent : Option Nat) (hne : path≠[]) :
    s.path2node parent (some path)=(s.startNode parent path).bind (fun current =>
      if components path=[] then some ⟨some current,some current,some [slash],none⟩
      else s.walkNames (s.path2nodeLinks s.nodes.length) (path.getLast?=some slash) current
        (components path)) :=
  s.path2nodeLinks_eq s.nodes.length parent hne

theorem path2node_empty (s : Vfs) (parent : Option Nat) :
    s.path2node parent (some [])=some (.nothing (some .enoent)) := by
  rw [path2node,path2nodeLinks_succ,if_pos rfl]

end Vfs

def VfsNode.next (node : VfsNode) : Option Nat := node.redir.or node.mountpoint

namespace Vfs

variable {i j : Nat} {node : VfsNode} {r : Path2node} {parent : Option Nat} {s' : Vfs}

theorem reduceFrom_last {n : Nat} (hnode : s.nodes[i]?=some node) (hnext : node.next=none) :
    s.reduceFrom (n+1) i=some i := by
  rw [VfsNode.next,Option.or_eq_none_iff] at hnext
  rw [reduceFrom_succ,hnode,bind_some,hnext.1,hnext.2]

theorem reduceFrom_next {n k : Nat} (hnode : s.nodes[i]?=some node) (hnext : node.next=some k) :
    s.reduceFrom (n+1) i=s.reduceFrom n k := by
  rw [VfsNode.next] at hnext
  rw [reduceFrom_succ,hnode,bind_some]
  cases hredir : node.redir with
  | some next =>
    rw [hredir] at hnext
    cases hnext
    rfl
  | none =>
    rw [hredir,Option.none_or] at hnext
    rw [hnext]

theorem reduceFrom_cases {n : Nat} (h : s.reduceFrom n i=some j) :
    ∃ m node,n=m+1 ∧ s.nodes[i]?=some node ∧ ((node.next=none ∧ j=i) ∨
      ∃ k,node.next=some k ∧ s.reduceFrom m k=some j) := by
  cases n with
  | zero => cases h
  | succ m =>
    cases hnode : s.nodes[i]? with
    | none =>
      rw [reduceFrom_succ,hnode] at h
      cases h
    | some node =>
      refine ⟨m,node,rfl,rfl,?_⟩
      cases hnext : node.next with
      | none =>
        rw [reduceFrom_last hnode hnext] at h
        cases h
        exact .inl ⟨rfl,rfl⟩
      | some k =>
        rw [reduceFrom_next hnode hnext] at h
        exact .inr ⟨k,rfl,h⟩

def Final (s : Vfs) (i : Nat) : Prop := ∃ node,s.nodes[i]?=some node ∧ node.next=none

theorem reduceFrom_final {n : Nat} (h : s.reduceFrom n i=some j) : s.Final j := by
  induction n generalizing i with
  | zero => cases h
  | succ n ih =>
    obtain ⟨m,node,hm,hnode,⟨hnext,rfl⟩ | ⟨k,hnext,hk⟩⟩ := reduceFrom_cases h
    · exact ⟨node,hnode,hnext⟩
    · cases hm
      exact ih hk

theorem reduceNode_final (h : s.reduceNode i=some j) : s.Final j :=
  reduceFrom_final h

theorem reduceNode_self (h : s.Final i) : s.reduceNode i=some i := by
  obtain ⟨node,hnode,hnext⟩ := h
  obtain ⟨n,hn⟩ : ∃ n,s.nodes.length=n+1 :=
    ⟨s.nodes.length-1,by have := (List.getElem?_eq_some_iff.mp hnode).1; omega⟩
  rw [reduceNode,hn,reduceFrom_last hnode hnext]

theorem lookupElem_missing {d : Nat} {dir : VfsNode} (hd : s.Final d) (hdir : s.nodes[d]?=some dir)
    (hget : dir.children.get name=none) (last : Bool) :
    s.lookupElem link askForDir last d name=some (.inl
      (if last then ⟨some d,none,some name,some .enoent⟩ else .nothing (some .enoent))) := by
  rw [lookupElem_eq,reduceNode_self hd,bind_some,hdir,bind_some,hget]
  cases last <;> rfl

theorem lookupElem_child {d c k mode : Nat} {dir : VfsNode} (hd : s.Final d)
    (hdir : s.nodes[d]?=some dir) (hget : dir.children.get name=some c) (hk : s.reduceNode c=some k)
    (hnode : s.nodes[k]?=some node) (hmode : node.mode=some mode) (hlnk : sIslnk mode=false)
    (last : Bool) :
    s.lookupElem link askForDir last d name=some (
      if last then .inl (if askForDir && !sIsdir mode then ⟨some d,none,some name,some .enotdir⟩
        else ⟨some d,some k,some name,none⟩)
      else if sIsdir mode then .inr k else .inl (.nothing (some .enotdir))) := by
  rw [lookupElem_eq,reduceNode_self hd,bind_some,hdir,bind_some,hget]
  simp only [hk,bind_some,hnode,hmode,hlnk,Bool.false_eq_true,if_false,map_some]
  cases last <;> cases askForDir <;> cases sIsdir mode <;> rfl

inductive Walked (s : Vfs) (askForDir : Bool) (names : List Str) (plain : Option Path2node) :
    Path2node → Prop
  | nowhere {e : Option Errno} : Walked s askForDir names plain (.nothing e)
  | missing {p : Nat} {dir : VfsNode} {name : Str} (hfinal : s.Final p)
      (hdir : s.nodes[p]?=some dir) (hget : dir.children.get name=none) (hname : name∈names) :
      Walked s askForDir names plain ⟨some p,none,some name,some .enoent⟩
  | found {p new : Nat} {name : Str} (hp : s.Final p) (hnew : s.Final new) (hname : name∈names) :
      Walked s askForDir names plain ⟨some p,some new,some name,none⟩
  | notDirectory {p new mode : Nat} {node : VfsNode} {name : Str} (hask : askForDir=true)
      (hplain : plain=some ⟨some p,some new,some name,none⟩) (hp : s.Final p)
      (hnode : s.nodes[new]?=some node) (hmode : node.mode=some mode) (hfile : sIsdir mode=false)
      (hname : name∈names) :
      Walked s askForDir names plain ⟨some p,none,some name,some .enotdir⟩

theorem Walked.cons {names : List Str} {plain : Option Path2node}
    (h : Walked s askForDir names plain r) (name : Str) :
    Walked s askForDir (name::names) plain r := by
  cases h with
  | nowhere => exact .nowhere
  | missing hfinal hdir hget hname => exact .missing hfinal hdir hget (List.mem_cons_of_mem _ hname)
  | found hp hnew hname => exact .found hp hnew (List.mem_cons_of_mem _ hname)
  | notDirectory hask hplain hp hnode hmode hfile hname =>
    exact .notDirectory hask hplain hp hnode hmode hfile (List.mem_cons_of_mem _ hname)

theorem walkNames_walked {names : List Str} (h : s.walkNames link askForDir current names=some r) :
    Walked s askForDir names (s.walkNames link false current names) r := by
  induction names generalizing current with
  | nil => cases h
  | cons name names ih =>
    rw [walkNames] at h ⊢
    cases hx : s.lookupElem link askForDir (decide (names=[])) current name with
    | none =>
      rw [hx] at h
      cases h
    | some x =>
      rw [hx,bind_some] at h
      cases lookupElem_looked hx with
      | missing hp hdir hget _ =>
        cases h
        exact .missing (reduceNode_final hp) hdir hget List.mem_cons_self
      | found hp hdir hget hnew hnode _ =>
        cases h
        exact .found (reduceNode_final hp) (reduceNode_final hnew) List.mem_cons_self
      | notDirectory hp hdir hget hnew hnode hmode hfile hlast hask =>
        cases h
        refine .notDirectory hask ?_ (reduceNode_final hp) hnode hmode hfile List.mem_cons_self
        simp [lookupElem_eq,hp,hdir,hget,hnew,hnode,hlast]
      | nowhere _ =>
        cases h
        exact .nowhere
      | @onward next hlast =>
        -- only the last name asks for a directory
        have hplain : s.lookupElem link false (decide (names=[])) current name=some (.inr next) := by
          rw [← hx,hlast]
          rfl
        rw [hplain,bind_some]
        exact (ih h).cons name

theorem path2node_walked (h : s.path2node parent (some path)=some r) :
    (∃ i,s.Final i ∧ r=⟨some i,some i,some [slash],none⟩) ∨
      Walked s (path.getLast?=some slash) (components path)
        (s.path2node parent (some (stripSlashes path))) r := by
  by_cases hne : path=[]
  · rw [hne,path2node_empty] at h
    cases h
    exact .inr .nowhere
  · rw [path2node_eq s parent hne,bind_eq_some_iff] at h
    obtain ⟨current,hstart,h⟩ := h
    by_cases hnil : components path=[]
    · rw [if_pos hnil] at h
      cases h
      refine .inl ⟨current,?_,rfl⟩
      simp only [startNode,bind_eq_some_iff] at hstart
      obtain ⟨first,hfirst,hstart⟩ := hstart
      split at hstart
      · exact reduceNode_final hstart
      · cases hstart
        exact reduceNode_final hfirst
    · rw [if_neg hnil] at h
      have hstrip : stripSlashes path≠[] := by
        intro he
        apply hnil
        rw [← components_stripSlashes,he]
        rfl
      have hplain : s.path2node parent (some (stripSlashes path))=
          s.walkNames (s.path2nodeLinks s.nodes.length) false current (components path) := by
        have hsame : s.startNode parent (stripSlashes path)=some current := by
          rw [← hstart,startNode,startNode,stripSlashes_head? hstrip]
        rw [path2node_eq s parent hstrip,hsame,bind_some,components_stripSlashes,if_neg hnil,
          decide_eq_false (stripSlashes_getLast? path)]
      rw [hplain]
      exact .inr (walkNames_walked h)

/-- The path ends in a slash after the name of something that is no directory. -/
def TrailsFile (s : Vfs) (parent : Option Nat) (path : Str) : Prop :=
  path.getLast?=some slash ∧ ∃ r node mode,s.path2node parent (some (stripSlashes path))=some r ∧
    (r.target.bind (fun i => s.nodes[i]?))=some node ∧ node.mode=some mode ∧ sIsdir mode=false

/-- Every node of s is still there in s', and leads where it led. -/
def KeepsLinks (s s' : Vfs) : Prop :=
  ∀ (i : Nat) (node : VfsNode),s.nodes[i]?=some node →
    ∃ node',s'.nodes[i]?=some node' ∧ node'.next=node.next

theorem KeepsLinks.reduceFrom (hkeep : KeepsLinks s s') {n n' : Nat} (hn : n ≤ n')
    (h : s.reduceFrom n i=some j) : s'.reduceFrom n' i=some j := by
  induction n generalizing n' i with
  | zero => cases h
  | succ n ih =>
    obtain ⟨m,rfl⟩ : ∃ m,n'=m+1 := ⟨n'-1,by omega⟩
    obtain ⟨k,node,hk,hnode,hcases⟩ := reduceFrom_cases h
    cases hk
    obtain ⟨node',hnode',hsame⟩ := hkeep i node hnode
    rcases hcases with ⟨hnext,rfl⟩ | ⟨next,hnext,hk⟩
    · exact reduceFrom_last hnode' (hsame.trans hnext)
    · rw [reduceFrom_next hnode' (hsame.trans hnext)]
      exact ih (by omega) hk

theorem KeepsLinks.reduceNode (hkeep : KeepsLinks s s') (hlen : s.nodes.length ≤ s'.nodes.length)
    (h : s.reduceNode i=some j) : s'.reduceNode i=some j :=
  hkeep.reduceFrom hlen h

/-- s' is s with a new node n, that p has as its child of that name. -/
structure Grown (s s' : Vfs) (p : Nat) (name : Str) (n : VfsNode) : Prop where
  child : ∃ dir children,s.nodes[p]?=some dir ∧ dir.children.insert name s.nodes.length=some children ∧
    s'.nodes=s.nodes.set p { dir with children := children }++[n]
  root : s'.vfsRoot=s.vfsRoot
  device : s'.devtmpfsRoot=s.devtmpfsRoot
  types : s'.filesystems=s.filesystems

theorem insertChild_grown {p : Nat} {n : VfsNode} (hp : p < s.nodes.length)
    (h : (s.addNode n).2.insertChild p name (s.addNode n).1=some s') : Grown s s' p name n := by
  simp only [addNode,insertChild,bind_eq_some_iff,map_eq_some_iff,setNode] at h
  obtain ⟨dir,hdir,children,hins,rfl⟩ := h
  rw [List.getElem?_append_left hp] at hdir
  exact ⟨⟨dir,children,hdir,hins,List.set_append_left _ _ hp⟩,rfl,rfl,rfl⟩

namespace Grown

variable {p : Nat} {n : VfsNode}

variable (h : Grown s s' p name n)
include h

theorem length : s'.nodes.length=s.nodes.length+1 := by
  obtain ⟨dir,children,-,-,hnodes⟩ := h.child
  rw [hnodes,List.length_append,List.length_set]
  rfl

theorem new : s'.nodes[s.nodes.length]?=some n := by
  obtain ⟨dir,children,-,-,hnodes⟩ := h.child
  rw [hnodes,List.getElem?_append_right (by rw [List.length_set]),List.length_set,Nat.sub_self]
  rfl

theorem old (hnode : s.nodes[i]?=some node) :
    ∃ children,s'.nodes[i]?=some { node with children := children } ∧
      if i=p then node.children.insert name s.nodes.length=some children
      else children=node.children := by
  obtain ⟨dir,children,hdir,hins,hnodes⟩ := h.child
  have hi : i < s.nodes.length := (List.getElem?_eq_some_iff.mp hnode).1
  rw [hnodes,List.getElem?_append_left (by rwa [List.length_set]),List.getElem?_set]
  by_cases hip : i=p
  · subst hip
    rw [hdir] at hnode
    cases hnode
    rw [if_pos rfl,if_pos hi]
    exact ⟨children,rfl,by rwa [if_pos rfl]⟩
  · rw [if_neg (Ne.symm hip)]
    exact ⟨node.children,hnode,by rw [if_neg hip]⟩

theorem keepsLinks : KeepsLinks s s' := by
  intro i node hnode
  obtain ⟨children,hnode',-⟩ := h.old hnode
  exact ⟨_,hnode',rfl⟩

theorem reduceNode (hr : s.reduceNode i=some j) : s'.reduceNode i=some j := by
  refine h.keepsLinks.reduceNode ?_ hr
  rw [h.length]
  exact Nat.le_succ _

end Grown

theorem create_cases {mode : Nat} {o : Option Nat} (h : s.create parent path mode=some (o,s')) :
    ∃ r,s.path2node parent (some path)=some r ∧
      ((o=none ∧ (∃ e,s'=s.setErrno e) ∧ (r.targetParent=none ∨ r.target≠none)) ∨
        ∃ p name dir fs,r.targetParent=some p ∧ r.target=none ∧ r.basename=some name ∧
          s.nodes[p]?=some dir ∧ dir.filesystem=some fs ∧ o=some s.nodes.length ∧
          Grown s s' p name { createNode (some fs) (some p) name (sIsdir mode) with
            resource := some (createTmpfsResource mode) }) := by
  simp only [create,bind_eq_some_iff] at h
  obtain ⟨⟨tp,t,b,e⟩,hr,h⟩ := h
  refine ⟨_,hr,?_⟩
  rcases tp with - | p
  · cases h
    exact .inl ⟨rfl,⟨e,rfl⟩,.inl rfl⟩
  rcases t with - | t
  · rcases b with - | name
    · cases h
    simp only [bind_eq_some_iff,map_eq_some_iff] at h
    obtain ⟨fs,⟨dir,hdir,hfs⟩,s₁,hins,he⟩ := h
    cases he
    have hp : p < s.nodes.length := (List.getElem?_eq_some_iff.mp hdir).1
    obtain ⟨hc,h1,h2,h3⟩ := insertChild_grown (s := s.setErrno e) hp hins
    exact .inr ⟨p,name,dir,fs,rfl,rfl,rfl,hdir,hfs,rfl,⟨hc,h1,h2,h3⟩⟩
  · cases h
    exact .inl ⟨rfl,⟨some .eexist,rfl⟩,.inr (Option.some_ne_none _)⟩

theorem create_isSome {mode : Nat} (hr : s.path2node parent (some path)=some r)
    (hnew : ∀ p,r.targetParent=some p → r.target=none → ∃ name dir fs,r.basename=some name ∧
      s.nodes[p]?=some dir ∧ dir.filesystem=some fs ∧ dir.children.cap≠0 ∧
      name.length ≤ hashmapKeyDataMax) : ∃ o s',s.create parent path mode=some (o,s') := by
  rw [create,hr,bind_some]
  obtain ⟨tp,t,b,e⟩ := r
  rcases tp with - | p
  · exact ⟨_,_,rfl⟩
  rcases t with - | t
  · obtain ⟨name,dir,fs,hb,hdir,hfs,hcap,hlen⟩ := hnew p rfl rfl
    dsimp only at hb
    subst hb
    obtain ⟨children,hins⟩ : ∃ children,dir.children.insert name s.nodes.length=some children :=
      HashMap.insert_isSome hcap hlen
    have hp : p < s.nodes.length := (List.getElem?_eq_some_iff.mp hdir).1
    simp only [setErrno,hdir,bind_some,hfs,fsCreate,addNode,insertChild,
      List.getElem?_append_left hp,hins,map_some]
    exact ⟨_,_,rfl⟩
  · exact ⟨_,_,rfl⟩

end Vfs

end X64OS.Fs
