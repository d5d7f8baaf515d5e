import X64OS.Fs.Openat

namespace X64OS.Fs

open Framework

def FdTable.openDescription (t : FdTable) (fdnum : Int) : Option FileDescription :=
  if fdnum < 0 ∨ maxFds ≤ fdnum then none else (t.fds fdnum.toNat).bind t.descriptionOf

namespace OpenWorld

/-- Where the resolution of a relative path is to start: at the working directory, or at
the directory that the descriptor is of; none for any other descriptor. -/
def startDir (w : OpenWorld) (dirFdnum : Int) : Option (Option Nat) :=
  if dirFdnum=atFdcwd then some w.cwd
  else (w.table.openDescription dirFdnum).bind (fun e => (w.resMode e.res).bind (fun mode =>
    if sIsdir mode then some e.node else none))

def Resolves (env : OpenEnv) (w : OpenWorld) (dirFdnum : Int) (path : Str) : Prop :=
  match w.startDir dirFdnum with
  | some start =>
    (fdnumPathToNode env dirFdnum (some path) false false true w).map (fun x => (x.1,x.2.tree))=
      (FsTree.path2node env.disk env.links start (some path) w.tree).map (fun x => (some x.1,x.2))
  | none => ∃ w', fdnumPathToNode env dirFdnum (some path) false false true w=some (none,w') ∧
    w'.tree.nodes=w.tree.nodes

def Valid (w : OpenWorld) : Prop :=
  ∀ i p, w.table.fds i=some p → ∃ e mode, w.table.descriptionOf p=some e ∧ w.resMode e.res=some mode

variable {w : OpenWorld} {dirFdnum : Int} {path : Str}

theorem ask_eq {α : Type} {g : OpenWorld → Option α} {a : α} (h : g w=some a) : ask g w=some (a,w) := by
  rw [ask,h]
  rfl

theorem fdFromFdnum_cases (hv : w.Valid) (fdnum : Int) :
    (w.table.openDescription fdnum=none ∧
      onTable (FdTable.fdFromFdnum fdnum) w=some (none,w)) ∨
    ∃ p e mode w₁, w.table.openDescription fdnum=some e ∧ w.resMode e.res=some mode ∧
      onTable (FdTable.fdFromFdnum fdnum) w=some (some p,w₁) ∧ w₁.tree=w.tree ∧
      w₁.table.descriptionOf p=some { e with refcount := add64 e.refcount 1 } := by
  rw [FdTable.openDescription,onTable,FdTable.fdFromFdnum]
  by_cases hrange : fdnum < 0 ∨ maxFds ≤ fdnum
  · rw [if_pos hrange,if_pos hrange]
    exact .inl ⟨rfl,rfl⟩
  rw [if_neg hrange,if_neg hrange]
  cases hp : w.table.fds fdnum.toNat with
  | none => exact .inl ⟨rfl,rfl⟩
  | some p =>
    obtain ⟨e,mode,he,hmode⟩ := hv _ p hp
    obtain ⟨fd,hfd,hd⟩ := Option.bind_eq_some_iff.mp he
    simp only [hfd,Option.bind_some,hd]
    refine .inr ⟨p,e,mode,_,he,hmode,rfl,rfl,?_⟩
    change (w.table.descriptors p).bind _=_
    rw [hfd,Option.bind_some]
    exact Function.update_self _ _ _

theorem getParentDir_cases (dirFdnum : Int) (hrel : path.head?≠some slash) (hv : w.Valid) :
    (∃ start w₁, w.startDir dirFdnum=some start ∧
      getParentDir dirFdnum (some path) w=some (start,w₁) ∧ w₁.tree=w.tree) ∨
    (∃ w₁ errno, w.startDir dirFdnum=none ∧
      getParentDir dirFdnum (some path) w=some (none,w₁) ∧ w₁.tree={ w.tree with errno := errno }) := by
  rw [startDir,getParentDir,if_neg (show ¬(some path).bind List.head?=some slash from hrel)]
  by_cases hcwd : dirFdnum=atFdcwd
  · rw [if_pos hcwd,if_pos hcwd]
    exact .inl ⟨w.cwd,w,rfl,rfl,rfl⟩
  rw [if_neg hcwd,if_neg hcwd]
  rcases fdFromFdnum_cases hv dirFdnum with ⟨hclosed,hfd⟩ | ⟨p,e,mode,w₁,hopen,hmode,hfd,htree,hdesc⟩
  · rw [hclosed,bind_of_returns hfd]
    exact .inr ⟨w,w.tree.errno,rfl,rfl,rfl⟩
  · have hmode₁ : w₁.resMode e.res=some mode := by
      rw [← hmode]
      cases e.res with
      | node i => rw [resMode,resMode,nodeMode,nodeMode,htree]
      | other m => rfl
    rw [hopen,Option.bind_some,hmode,Option.bind_some,bind_of_returns hfd]
    dsimp only
    rw [bind_of_returns (ask_eq hdesc),bind_of_returns (ask_eq hmode₁)]
    by_cases hd : sIsdir mode=true
    · rw [if_pos hd,if_pos hd]
      exact .inl ⟨e.node,w₁,rfl,rfl,htree⟩
    · rw [if_neg hd,if_neg hd]
      refine .inr ⟨{ w₁ with tree := { w₁.tree with errno := .enotdir } },.enotdir,rfl,rfl,?_⟩
      rw [← htree]

/-- What comes after get_parent_dir is the resolution from there, whatever it has found. -/
theorem fdnumPathToNode_eq (env : OpenEnv) {o : Option Nat} {w₁ : OpenWorld} (hne : path≠[])
    (h : getParentDir dirFdnum (some path) w=some (o,w₁)) :
    fdnumPathToNode env dirFdnum (some path) false false true w=
      (FsTree.path2node env.disk env.links o (some path) w₁.tree).map (fun x =>
        (some x.1,{ w₁ with tree := x.2 })) := by
  rw [fdnumPathToNode,if_neg (fun hc => hne hc.2),bind_of_returns h,if_neg (by decide)]
  cases hr : FsTree.path2node env.disk env.links o (some path) w₁.tree with
  | none =>
    show (onTree _ w₁).bind _=none
    rw [onTree,hr]
    rfl
  | some x =>
    have htree : onTree (FsTree.path2node env.disk env.links o (some path)) w₁=
        some (x.1,{ w₁ with tree := x.2 }) := by
      rw [onTree,hr]
      rfl
    have herrno : ask (fun w => some w.tree.errno) { w₁ with tree := x.2 }=
        some (x.2.errno,{ w₁ with tree := x.2 }) := rfl
    rw [bind_of_returns htree,bind_of_returns herrno,if_neg (fun hc => by cases hc.2.2)]
    rfl

end OpenWorld

/-- Only from the working directory and from an open directory is a relative path resolved
as it has to be: for any other descriptor it is resolved from the root. -/
theorem openat_resolution_iff (env : OpenEnv) (w : OpenWorld) (dirFdnum : Int) (path : Str)
    (hne : path≠[]) (hrel : path.head?≠some slash) (hv : w.Valid) :
    (w.Resolves env dirFdnum path ↔ (w.startDir dirFdnum).isSome) ∧
    (w.startDir dirFdnum=none → ∃ errno,
      (OpenWorld.fdnumPathToNode env dirFdnum (some path) false false true w).map Prod.fst=
        (FsTree.path2node env.disk env.links none (some path) { w.tree with errno := errno }).map
          (fun x => some x.1)) := by
  rcases OpenWorld.getParentDir_cases dirFdnum hrel hv with
    ⟨start,w₁,hstart,hdir,htree⟩ | ⟨w₁,errno,hnone,hdir,htree⟩
  · have hpath := OpenWorld.fdnumPathToNode_eq env hne hdir
    refine ⟨?_,fun hn => by rw [hstart] at hn; cases hn⟩
    rw [OpenWorld.Resolves,hstart]
    refine iff_of_true ?_ rfl
    dsimp only
    rw [hpath,htree,Option.map_map]
    rfl
  · have hpath := OpenWorld.fdnumPathToNode_eq env hne hdir
    refine ⟨?_,fun _ => ⟨errno,?_⟩⟩
    · rw [OpenWorld.Resolves,hnone]
      refine iff_of_false ?_ Bool.false_ne_true
      rintro ⟨w',hw',-⟩
      rw [hpath] at hw'
      obtain ⟨x,-,hx⟩ := Option.map_eq_some_iff.mp hw'
      cases hx
    · rw [hpath,htree,Option.map_map]
      rfl

def OpenWorld.inDirectory (t : FsTree) : OpenWorld where
  tree := t
  files _ := createTmpfsResource 0
  refcounts _ := 0
  table :=
    ⟨fun i => if i=3 then some 0 else none,fun p => if p=0 then some ⟨0⟩ else none,
      fun d => if d=0 then some ⟨1,0,.node 1,some 1⟩ else none⟩
  next := 1
  cwd := some 1

theorem OpenWorld.inDirectory_valid : (OpenWorld.inDirectory (mountedTree .tmpfs)).Valid := by
  intro i p hp
  obtain ⟨-,hp⟩ := Option.ite_none_right_eq_some.mp hp
  cases hp
  exact ⟨_,_,rfl,rfl⟩

/-- From the working directory, and from the open directory. -/
theorem openat_resolution_iff_directory :
    (OpenWorld.inDirectory (mountedTree .tmpfs)).Resolves .plain atFdcwd [0x61] ∧
    (OpenWorld.inDirectory (mountedTree .tmpfs)).Resolves .plain 3 [0x61] :=
  ⟨(openat_resolution_iff .plain _ atFdcwd [0x61] (by decide) (by decide)
      OpenWorld.inDirectory_valid).1.mpr rfl,
    (openat_resolution_iff .plain _ 3 [0x61] (by decide) (by decide)
      OpenWorld.inDirectory_valid).1.mpr rfl⟩

/-- A number that is not open: the file of that name in the root is found and opened. -/
theorem openat_closed_from_root : ∃ t r w₁ w₂,
    FsTree.create (fun _ _ => []) 1 true none none [slash,0x61] 0o100644 (mountedTree .tmpfs)=
      some (some 2,t) ∧
    (OpenWorld.inDirectory t).startDir 7=none ∧
    OpenWorld.fdnumPathToNode .plain 7 (some [0x61]) false false true (.inDirectory t)=some (some r,w₁) ∧
    r.target=some 2 ∧
    OpenWorld.syscallOpenat .plain 7 (some [0x61]) ⟨false,false,false,false⟩ 0 (.inDirectory t)=
      some (0,w₂) ∧
    ¬(OpenWorld.inDirectory t).Resolves .plain 7 [0x61] := by
  refine ⟨_,_,_,_,rfl,rfl,rfl,rfl,rfl,?_⟩
  rintro ⟨w',hw',-⟩
  cases hw'

end X64OS.Fs
