import X64OS.Fs.FsTree

namespace X64OS.Fs

open Framework

namespace FsTree

def count (t : FsTree) (i b : Nat) : Nat :=
  ((t.nodes[i]?).map (fun node => (node.children.bucketArray b).items.length)).getD 0

/-- No child of a node is lost, and where there are new nodes, a node that was there
before has new children. -/
structure Grows (t t' : FsTree) : Prop where
  length : t.nodes.length ≤ t'.nodes.length
  count : ∀ i b, t.count i b ≤ t'.count i b
  fresh : t.nodes.length < t'.nodes.length → ∃ i b, i < t.nodes.length ∧ t.count i b < t'.count i b

instance growsRefl : Std.Refl Grows := ⟨fun _ => ⟨le_rfl,fun _ _ => le_rfl,fun h => absurd h (Nat.lt_irrefl _)⟩⟩

theorem Grows.trans {t₁ t₂ t₃ : FsTree} (h : Grows t₁ t₂) (k : Grows t₂ t₃) : Grows t₁ t₃ := by
  refine ⟨h.length.trans k.length,fun i b => (h.count i b).trans (k.count i b),?_⟩
  intro hlt
  by_cases heq : t₁.nodes.length=t₂.nodes.length
  · obtain ⟨i,b,hi,hib⟩ := k.fresh (by omega)
    exact ⟨i,b,by omega,Nat.lt_of_le_of_lt (h.count i b) hib⟩
  · have hle := h.length
    obtain ⟨i,b,hi,hib⟩ := h.fresh (by omega)
    exact ⟨i,b,hi,Nat.lt_of_lt_of_le hib (k.count i b)⟩

instance growsTrans : IsTrans FsTree Grows := ⟨fun _ _ _ => Grows.trans⟩

variable {t t' : FsTree}

theorem Grows.of_same (h : ∀ i : Nat, (t'.nodes[i]?).map FsNode.children=
    (t.nodes[i]?).map FsNode.children) : Grows t t' := by
  have hcount : ∀ i b, t'.count i b=t.count i b := by
    intro i b
    have hi := congrArg (Option.map (fun m : HashMap (Option Nat) => (m.bucketArray b).items.length)) (h i)
    rw [Option.map_map,Option.map_map] at hi
    exact congrArg (Option.getD · 0) hi
  have hlen : t'.nodes.length=t.nodes.length := by
    have hiff : ∀ i, t'.nodes.length ≤ i ↔ t.nodes.length ≤ i := by
      intro i
      rw [← List.getElem?_eq_none_iff,← List.getElem?_eq_none_iff,← Option.map_eq_none_iff (f := FsNode.children),
        h i,Option.map_eq_none_iff]
    exact Nat.le_antisymm ((hiff _).mpr le_rfl) ((hiff _).mp le_rfl)
  exact ⟨by omega,fun i b => by rw [hcount],fun hlt => by omega⟩

theorem setErrno_grows (e : Errno) : Moves Grows (setErrno e) := by
  intro t a t' h
  cases h
  exact .of_same (fun _ => rfl)

theorem insertChild_count {p : Nat} {name : Str} {child : Option Nat}
    (h : insertChild p name child t=some ((),t')) : p < t.nodes.length ∧
      t'.nodes.length=t.nodes.length ∧ (∀ i b, t.count i b ≤ t'.count i b) ∧
      ∃ b, t.count p b < t'.count p b := by
  obtain ⟨dir,hdir,h⟩ := Option.bind_eq_some_iff.mp h
  obtain ⟨children,hins,h⟩ := Option.map_eq_some_iff.mp h
  cases h
  obtain ⟨-,-,-,cap,hb⟩ := HashMap.insert_some hins
  have hp : p < t.nodes.length := (List.getElem?_eq_some_iff.mp hdir).1
  have hold : ∀ b, t.count p b=(dir.children.bucketArray b).items.length := by
    intro b
    rw [FsTree.count,hdir]
    rfl
  have hnew : ∀ b, FsTree.count { t with nodes := t.nodes.set p { dir with children := children } } p b=
      (children.bucketArray b).items.length := by
    intro b
    rw [FsTree.count]
    dsimp only
    rw [List.getElem?_set_self hp]
    rfl
  have hsame : ∀ i b, i≠p →
      FsTree.count { t with nodes := t.nodes.set p { dir with children := children } } i b=t.count i b := by
    intro i b hi
    rw [FsTree.count,FsTree.count]
    dsimp only
    rw [List.getElem?_set_ne (Ne.symm hi)]
  refine ⟨hp,List.length_set,?_,dir.children.index name,?_⟩
  · intro i b
    by_cases hi : i=p
    · rw [hi,hold,hnew,hb]
      by_cases hbi : b=dir.children.index name
      · simp [hbi]
      · simp [hbi]
    · exact (hsame i b hi).ge
  · rw [hold,hnew,hb]
    simp

theorem populateEntry_grows {device i : Nat} {e : DirEntry} (hi : i < t.nodes.length)
    (h : populateEntry device i () e t=some ((),t')) : Grows t t' := by
  rw [populateEntry] at h
  split at h
  · cases h
    exact Std.Refl.refl t
  · change insertChild i e.name (some t.nodes.length) { t with nodes := t.nodes++[_] }=_ at h
    obtain ⟨-,hlen,hcount,b,hb⟩ := insertChild_count h
    have hold : ∀ k b, t.count k b ≤ FsTree.count { t with nodes := t.nodes++[
        createNode (some (.ext2fs device)) (some i) e.name e.mode e.inodeidx] } k b := by
      intro k b
      rw [FsTree.count,FsTree.count]
      by_cases hk : k < t.nodes.length
      · rw [List.getElem?_append_left hk]
      · rw [List.getElem?_eq_none (Nat.le_of_not_lt hk)]
        exact Nat.zero_le _
    rw [List.length_append,List.length_singleton] at hlen
    exact ⟨by omega,fun k b => (hold k b).trans (hcount k b),
      fun _ => ⟨i,b,hi,Nat.lt_of_le_of_lt (hold i b) hb⟩⟩

theorem populateEntries_grows {device i : Nat} (l : List DirEntry) (hi : i < t.nodes.length)
    (h : l.foldlM (populateEntry device i) () t=some ((),t')) : Grows t t' := by
  induction l generalizing t with
  | nil =>
    cases h
    exact Std.Refl.refl _
  | cons e l ih =>
    rw [List.foldlM_cons] at h
    obtain ⟨⟨⟩,t₁,h₁,h⟩ := bind_returns h
    have hg := populateEntry_grows hi h₁
    exact hg.trans (ih (Nat.lt_of_lt_of_le hi hg.length) h)

theorem setPopulated_grows (i : Nat) : Moves Grows (setPopulated i) := by
  intro t a t' h
  obtain ⟨dir,hdir,h⟩ := Option.map_eq_some_iff.mp h
  cases h
  apply Grows.of_same
  intro k
  dsimp only
  rw [List.getElem?_set]
  split
  · rename_i hk
    subst hk
    rw [if_pos (List.getElem?_eq_some_iff.mp hdir).1,hdir]
    rfl
  · rfl

theorem ext2fsPopulate_grows (disk : Disk) (device i : Nat) :
    Moves Grows (ext2fsPopulate disk device i) := by
  intro t a t'' h
  obtain ⟨dir,t₁,hdir,h⟩ := bind_returns h
  obtain ⟨dir',hdir',he⟩ := Option.map_eq_some_iff.mp hdir
  cases he
  obtain ⟨⟨⟩,t',hfold,h⟩ := bind_returns h
  have hi : i < t.nodes.length := (List.getElem?_eq_some_iff.mp hdir').1
  exact (populateEntries_grows _ hi hfold).trans (setPopulated_grows i t' a t'' h)

theorem populate_grows (disk : Disk) (i : Nat) : Moves Grows (populate disk i) := by
  refine .bind (.read _) ?_
  intro dir
  split
  · split
    · exact .bind (ext2fsPopulate_grows disk _ i) (fun _ => .bind (.read _) (fun _ => .pure _))
    · exact .pure _
  · exact .pure _

theorem path2node_grows (disk : Disk) (n : Nat) (parent : Option Nat) (path : Option Str) :
    Moves Grows (path2node disk n parent path) :=
  (moves_rule setErrno_grows (populate_grows disk)).path2node n parent path

theorem fsCreate_null {room : Bool} {fs : RegisteredFs} {parent mode : Nat} {name : Str}
    {target : Option Nat} (h : fsCreate room fs parent name mode t=some (target,t')) :
    (target=none ↔ (∃ device, fs=.ext2fs device) ∨ room=false) ∧ (target=none → t'=t) := by
  cases fs <;> cases room <;> cases h <;> simp

end FsTree

/-- Where the create callback returns NULL, which that of ext2fs always does and the
others do without memory, VFS::Create puts NULL into the children of the parent. -/
theorem vfs_create_null_iff (disk : Disk) (links : Nat) (room : Bool) (low parent : Option Nat)
    (path : Str) (mode : Nat) (t t₁ : FsTree) (c : FsTree.Called)
    (hcall : FsTree.createCallback disk links room parent path mode t=some (some c,t₁)) :
    (c.target=none ↔ (∃ device, c.fs=.ext2fs device) ∨ room=false) ∧
      ((c.target=none → ∃ t₂, FsTree.create disk links room low parent path mode t=some (none,t₂) ∧
          ∀ (i : Nat) (node : FsNode), t.nodes[i]?=some node →
            (t₂.nodes[i]?).map FsNode.children=some node.children) ↔
        ¬((∃ device, c.fs=.ext2fs device) ∨ room=false)) := by
  obtain ⟨r,t',hr,hc⟩ := FsTree.createCallback_cases hcall
  obtain ⟨hnull,hsame⟩ := FsTree.fsCreate_null hc
  refine ⟨hnull,?_,fun hno hn => absurd (hnull.mp hn) hno⟩
  intro hclaim hyes
  have htarget := hnull.mpr hyes
  obtain ⟨t₂,hcreate,hkept⟩ := hclaim htarget
  obtain ⟨-,hins⟩ := FsTree.create_inserts hcall hcreate
  have hgrows := FsTree.path2node_grows disk links parent (some path) t r t' hr
  rw [← hsame htarget] at hgrows
  obtain ⟨-,-,hcount,b,hb⟩ := FsTree.insertChild_count hins
  obtain ⟨i,b',hi,hlt⟩ : ∃ i b, i < t.nodes.length ∧ t.count i b < t₂.count i b := by
    by_cases hold : c.parent < t.nodes.length
    · exact ⟨c.parent,b,hold,Nat.lt_of_le_of_lt (hgrows.count _ _) hb⟩
    · have hp := (FsTree.insertChild_count hins).1
      obtain ⟨i,b',hi,hib⟩ := hgrows.fresh (by omega)
      exact ⟨i,b',hi,Nat.lt_of_lt_of_le hib (hcount i b')⟩
  have hnode := List.getElem?_eq_getElem hi
  rw [FsTree.count,FsTree.count,hnode] at hlt
  obtain ⟨node,hnode₂,heq⟩ := Option.map_eq_some_iff.mp (hkept i _ hnode)
  rw [hnode₂] at hlt
  simp [heq] at hlt

/-- In a tmpfs the callback makes a node. -/
theorem vfs_create_null_iff_tmpfs : ∃ c t₁,
    FsTree.createCallback (fun _ _ => []) 1 true none [slash,0x61] 0o100644 (mountedTree .tmpfs)=
      some (some c,t₁) ∧ c.target≠none := by
  have hcall : ∃ t₁, FsTree.createCallback (fun _ _ => []) 1 true none [slash,0x61] 0o100644
      (mountedTree .tmpfs)=some (some ⟨1,[0x61],.tmpfs,some 2⟩,t₁) := ⟨_,rfl⟩
  obtain ⟨t₁,hcall⟩ := hcall
  refine ⟨_,t₁,hcall,?_⟩
  rw [ne_eq,(vfs_create_null_iff _ _ _ none _ _ _ _ _ _ hcall).1]
  simp

/-- In an ext2fs VFS::Create returns NULL, if it returns, and the directory has a
child that is NULL. -/
theorem vfs_create_null_child : ∃ t₂,
    FsTree.create (fun _ _ => []) 1 true (some 0) none [slash,0x61] 0o100644 (mountedTree (.ext2fs 0))=
      some (none,t₂) ∧
    (t₂.nodes[1]?).map (fun node => node.children.get [0x61])=some (some none) ∧
    ((mountedTree (.ext2fs 0)).nodes[1]?).map (fun node => node.children.get [0x61])=some none :=
  ⟨_,rfl,by decide +kernel,rfl⟩

end X64OS.Fs
