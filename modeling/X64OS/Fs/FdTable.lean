import X64OS.Fs.RefCounts

namespace X64OS.Fs

open Framework Function

/-- What a description is of: the resource of a node, or another one with its mode. -/
inductive ResourceRef where
  | node (i : Nat)
  | other (mode : Nat)
  deriving DecidableEq, Repr

structure FileDescription where
  refcount : Nat
  offset : Nat
  res : ResourceRef
  node : Option Nat

/-- The table of a thread, whose slots hold pointers, and the objects that are allocated. -/
structure FdTable where
  fds : Nat → Option Nat
  descriptors : Nat → Option Descriptor
  descriptions : Nat → Option FileDescription

namespace FdTable

section
variable (t : FdTable)

def store (i p : Nat) : FdTable :=
  { t with fds := update t.fds i (some p) }

/-- free of a descriptor that was in a slot, which loses its reference. -/
def drop (i p d : Nat) (e : FileDescription) : FdTable where
  fds := update t.fds i none
  descriptors := update t.descriptors p none
  descriptions := update t.descriptions d
    (if e.refcount=1 then none else some { e with refcount := sub64 e.refcount 1 })

def fdnumClose (fdnum : Int) : Option (Bool × FdTable) :=
  if fdnum < 0 ∨ maxFds ≤ fdnum then some (false,t)
  else
    match t.fds fdnum.toNat with
    | none => some (false,t)
    | some p =>
      (t.descriptors p).bind (fun fd =>
        (t.descriptions fd.description).map (fun e => (true,t.drop fdnum.toNat p fd.description e)))

/-- The loop of fdnum_create_from_fd. -/
def firstFree (oldFdnum : Nat) : Option Nat :=
  (List.range' oldFdnum (maxFds-oldFdnum)).find? (fun i => (t.fds i).isNone)

def fdnumCreateFromFd (p : Nat) (oldFdnum : Int) (specific : Bool) : Option (Int × FdTable) :=
  if oldFdnum < 0 ∨ maxFds ≤ oldFdnum then some (-1,t)
  else if specific then
    (t.fdnumClose oldFdnum).map (fun x => (oldFdnum,x.2.store oldFdnum.toNat p))
  else
    match t.firstFree oldFdnum.toNat with
    | none => some (-1,t)
    | some i => some (i,t.store i p)

def Points (d : Nat) (S : Finset Nat) : Prop :=
  ∀ q∈S, (t.descriptors q).map Descriptor.description=some d

end

/-- Every slot has an object of its own, which is allocated, and every object that is
allocated has a reference to its description. -/
structure Sound (t : FdTable) : Prop where
  once : ∀ i j p, t.fds i=some p → t.fds j=some p → i=j
  live : ∀ i p, t.fds i=some p → (t.descriptors p).isSome
  counted : ∀ p fd, t.descriptors p=some fd → ∃ e, t.descriptions fd.description=some e ∧
    e.refcount < 2^64 ∧ ∀ S, t.Points fd.description S → S.card ≤ e.refcount

structure Unused (t : FdTable) (p : Nat) : Prop where
  live : (t.descriptors p).isSome
  free : ∀ i, t.fds i≠some p

variable {t t' : FdTable} {i p d : Nat} {fd : Descriptor} {e : FileDescription}

theorem drop_fds (j : Nat) : (t.drop i p d e).fds j=if j=i then none else t.fds j :=
  update_apply _ _ _ _

theorem drop_descriptors (q : Nat) :
    (t.drop i p d e).descriptors q=if q=p then none else t.descriptors q :=
  update_apply _ _ _ _

theorem store_fds (j : Nat) : (t.store i p).fds j=if j=i then some p else t.fds j :=
  update_apply _ _ _ _

theorem Points.of_drop {d' : Nat} {S : Finset Nat} (h : (t.drop i p d e).Points d' S) :
    p∉S ∧ t.Points d' S := by
  have hq : ∀ q∈S, q≠p ∧ (t.descriptors q).map Descriptor.description=some d' := by
    intro q hq
    have hd := h q hq
    rw [drop_descriptors] at hd
    split at hd
    · cases hd
    · rename_i hne
      exact ⟨hne,hd⟩
  exact ⟨fun hp => (hq p hp).1 rfl,fun q hqS => (hq q hqS).2⟩

theorem Sound.points_drop (h : t.Sound) (hp : t.descriptors p=some fd)
    (he : t.descriptions fd.description=some e) {S : Finset Nat}
    (hS : (t.drop i p fd.description e).Points fd.description S) : S.card+1 ≤ e.refcount := by
  obtain ⟨e',he',-,hcard⟩ := h.counted p fd hp
  rw [he] at he'
  cases he'
  obtain ⟨hpS,hS⟩ := hS.of_drop
  rw [← Finset.card_insert_of_notMem hpS]
  refine hcard _ (fun q hq => ?_)
  rcases Finset.mem_insert.mp hq with rfl | hq
  · rw [hp]
    rfl
  · exact hS q hq

theorem Sound.drop (h : t.Sound) (hi : t.fds i=some p) (hp : t.descriptors p=some fd)
    (he : t.descriptions fd.description=some e) : (t.drop i p fd.description e).Sound := by
  refine ⟨?_,?_,?_⟩
  · intro j k q hj hk
    rw [drop_fds] at hj hk
    obtain ⟨-,hj⟩ := Option.ite_none_left_eq_some.mp hj
    obtain ⟨-,hk⟩ := Option.ite_none_left_eq_some.mp hk
    exact h.once j k q hj hk
  · intro j q hj
    rw [drop_fds] at hj
    obtain ⟨hne,hj⟩ := Option.ite_none_left_eq_some.mp hj
    have hq : q≠p := by
      rintro rfl
      exact hne (h.once j i q hj hi)
    rw [drop_descriptors,if_neg hq]
    exact h.live j q hj
  · intro q fd' hq
    have hpoints : (t.drop i p fd.description e).Points fd'.description {q} := by
      intro r hr
      rw [Finset.mem_singleton.mp hr,hq]
      rfl
    rw [drop_descriptors] at hq
    obtain ⟨-,hq⟩ := Option.ite_none_left_eq_some.mp hq
    obtain ⟨e',he',hlt,hcard⟩ := h.counted q fd' hq
    by_cases hd : fd'.description=fd.description
    · -- the description stays, as the object q has a reference too
      rw [hd] at he' hpoints ⊢
      rw [he] at he'
      cases he'
      have hself := h.points_drop hp he hpoints
      rw [Finset.card_singleton] at hself
      refine ⟨{ e with refcount := sub64 e.refcount 1 },?_,Nat.mod_lt _ (Nat.pow_pos (by decide)),?_⟩
      · change update _ _ _ _=_
        rw [update_self,if_neg (by omega)]
      · intro S hS
        have hleft := h.points_drop hp he hS
        show S.card ≤ sub64 e.refcount 1
        rw [sub64_eq hlt (by omega)]
        omega
    · refine ⟨e',?_,hlt,fun S hS => hcard S hS.of_drop.2⟩
      change update _ _ _ _=_
      rw [update_of_ne hd]
      exact he'

theorem Sound.fdnumClose (h : t.Sound) (fdnum : Int) :
    (∃ p fd e, 0 ≤ fdnum ∧ fdnum < maxFds ∧ t.fds fdnum.toNat=some p ∧ t.descriptors p=some fd ∧
      t.descriptions fd.description=some e ∧
      t.fdnumClose fdnum=some (true,t.drop fdnum.toNat p fd.description e)) ∨
    (¬(0 ≤ fdnum ∧ fdnum < maxFds ∧ (t.fds fdnum.toNat).isSome) ∧ t.fdnumClose fdnum=some (false,t)) := by
  rw [FdTable.fdnumClose]
  by_cases hrange : fdnum < 0 ∨ maxFds ≤ fdnum
  · refine .inr ⟨?_,if_pos hrange⟩
    rintro ⟨h1,h2,-⟩
    omega
  rw [if_neg hrange]
  cases hp : t.fds fdnum.toNat with
  | none =>
    refine .inr ⟨?_,rfl⟩
    rintro ⟨-,-,hsome⟩
    cases hsome
  | some p =>
    obtain ⟨fd,hfd⟩ := Option.isSome_iff_exists.mp (h.live _ p hp)
    obtain ⟨e,he,-,-⟩ := h.counted p fd hfd
    refine .inl ⟨p,fd,e,by omega,by omega,rfl,hfd,he,?_⟩
    dsimp only
    rw [hfd,Option.bind_some,he]
    rfl

theorem Sound.store (h : t.Sound) (hp : t.Unused p) : (t.store i p).Sound := by
  refine ⟨?_,?_,h.counted⟩
  · intro j k q hj hk
    rw [store_fds] at hj hk
    split at hj <;> split at hk
    · omega
    · cases hj
      exact absurd hk (hp.free k)
    · cases hk
      exact absurd hj (hp.free j)
    · exact h.once j k q hj hk
  · intro j q hj
    rw [store_fds] at hj
    split at hj
    · cases hj
      exact hp.live
    · exact h.live j q hj

theorem firstFree_cases (t : FdTable) (oldFdnum : Nat) :
    (t.firstFree oldFdnum=none ∧ ∀ i, oldFdnum ≤ i → i < maxFds → t.fds i≠none) ∨
    ∃ i, t.firstFree oldFdnum=some i ∧ oldFdnum ≤ i ∧ i < maxFds ∧ t.fds i=none ∧
      ∀ j, oldFdnum ≤ j → j < i → t.fds j≠none := by
  cases hfind : t.firstFree oldFdnum with
  | none =>
    refine .inl ⟨rfl,fun i h1 h2 hfree => ?_⟩
    have hnot := List.find?_eq_none.mp hfind i (List.mem_range'_1.mpr (by omega))
    rw [hfree] at hnot
    exact hnot rfl
  | some i =>
    obtain ⟨hfree,k,hk,hik,hbefore⟩ := List.find?_eq_some_iff_getElem.mp hfind
    rw [List.getElem_range'] at hik
    rw [List.length_range'] at hk
    refine .inr ⟨i,rfl,by omega,by omega,Option.isNone_iff_eq_none.mp hfree,fun j h1 h2 hnone => ?_⟩
    have hj := hbefore (j-oldFdnum) (by omega)
    rw [List.getElem_range',show oldFdnum+1*(j-oldFdnum)=j by omega,hnone] at hj
    cases hj

/-- The table is that of a thread in the model without objects, which has the descriptors
themselves in the slots; number tells resources apart. -/
structure Shows (t : FdTable) (number : ResourceRef → Nat) (s : Files) (thread : Nat) : Prop where
  fds : ∀ i, s.fds thread i=(t.fds i).bind t.descriptors
  descriptions : ∀ d, s.descriptions d=
    (t.descriptions d).map (fun e => ⟨e.refcount,e.offset,number e.res⟩)

variable {number : ResourceRef → Nat} {s : Files} {thread : Nat}

section
variable (h : t.Shows number s thread)
include h

theorem Shows.drop (hs : t.Sound) (hi : t.fds i=some p) :
    (t.drop i p d e).Shows number
      ((s.release d ⟨e.refcount,e.offset,number e.res⟩).clearFd thread i) thread := by
  refine ⟨?_,?_⟩
  · intro j
    change update (Files.release s d _).fds thread _ thread j=_
    rw [update_self,Files.fds_release,update_apply,drop_fds]
    by_cases hj : j=i
    · rw [if_pos hj,if_pos hj]
      rfl
    · rw [if_neg hj,if_neg hj,h.fds]
      refine Option.bind_congr (fun q hq => ?_)
      have hne : q≠p := by
        rintro rfl
        exact hj (hs.once j i q hq hi)
      rw [drop_descriptors,if_neg hne]
  · intro j
    change (Files.release s d _).descriptions j=Option.map _ (update t.descriptions d _ j)
    rw [Files.descriptions_release,update_apply]
    by_cases hj : j=d
    · rw [if_pos hj,if_pos hj]
      dsimp only
      split <;> rfl
    · rw [if_neg hj,if_neg hj,h.descriptions]

theorem Shows.store (hp : t.descriptors p=some fd) :
    (t.store i p).Shows number (s.setFd thread i fd) thread := by
  refine ⟨?_,h.descriptions⟩
  intro j
  change update s.fds thread _ thread j=_
  rw [update_self,update_apply,store_fds]
  by_cases hj : j=i
  · rw [if_pos hj,if_pos hj,Option.bind_some]
    exact hp.symm
  · rw [if_neg hj,if_neg hj,h.fds]
    rfl

/-- Both models of fdnum_close agree. -/
theorem Shows.fdnumClose (hs : t.Sound) (fdnum : Int) :
    ∃ ok u s', t.fdnumClose fdnum=some (ok,u) ∧ Fs.fdnumClose s thread fdnum=some (ok,s') ∧
      u.Shows number s' thread := by
  rcases hs.fdnumClose fdnum with ⟨p,fd,e,h1,h2,hi,hp,he,hclose⟩ | ⟨hno,hclose⟩
  · refine ⟨true,_,_,hclose,?_,h.drop hs hi⟩
    rw [Fs.fdnumClose,if_neg (by omega),h.fds,hi,Option.bind_some,hp]
    dsimp only
    rw [h.descriptions,he]
    rfl
  · refine ⟨false,t,s,hclose,?_,h⟩
    rw [Fs.fdnumClose]
    by_cases hrange : fdnum < 0 ∨ maxFds ≤ fdnum
    · exact if_pos hrange
    · have hnone : t.fds fdnum.toNat=none := by
        rw [← Option.not_isSome_iff_eq_none]
        exact fun hsome => hno ⟨by omega,by omega,hsome⟩
      rw [if_neg hrange,h.fds,hnone]
      rfl

theorem Shows.fdnumCreateFromFd (hs : t.Sound) (hp : t.descriptors p=some fd) (oldFdnum : Int)
    (hfree : t.fds oldFdnum.toNat≠some p) (specific : Bool) :
    ∃ n u s', t.fdnumCreateFromFd p oldFdnum specific=some (n,u) ∧
      (if specific then fdnumCreateSpecific s thread fd oldFdnum
        else some (Fs.fdnumCreateFromFd s thread fd oldFdnum))=some (n,s') ∧
      u.Shows number s' thread := by
  rw [FdTable.fdnumCreateFromFd,fdnumCreateSpecific,Fs.fdnumCreateFromFd]
  by_cases hrange : oldFdnum < 0 ∨ maxFds ≤ oldFdnum
  · rw [if_pos hrange,if_pos hrange,if_pos hrange,ite_self]
    exact ⟨-1,t,s,rfl,rfl,h⟩
  rw [if_neg hrange,if_neg hrange,if_neg hrange]
  cases specific with
  | true =>
    rw [if_pos rfl,if_pos rfl]
    obtain ⟨ok,u,s',hu,hs',hshow⟩ := h.fdnumClose hs oldFdnum
    have hlive : u.descriptors p=some fd := by
      rcases hs.fdnumClose oldFdnum with ⟨q,fd',e,-,-,hi,-,-,hclose⟩ | ⟨-,hclose⟩
      · rw [hu] at hclose
        cases hclose
        have hne : p≠q := by
          rintro rfl
          exact hfree hi
        rw [drop_descriptors,if_neg hne,hp]
      · rw [hu] at hclose
        cases hclose
        exact hp
    rw [hu,hs']
    exact ⟨oldFdnum,_,_,rfl,rfl,hshow.store hlive⟩
  | false =>
    rw [if_neg Bool.false_ne_true,if_neg Bool.false_ne_true]
    have hsame : (fun i => (s.fds thread i).isNone)=fun i => (t.fds i).isNone := by
      funext i
      rw [h.fds]
      cases hi : t.fds i with
      | none => rfl
      | some q =>
        obtain ⟨fd',hq⟩ := Option.isSome_iff_exists.mp (hs.live i q hi)
        rw [Option.bind_some,hq]
        rfl
    rw [hsame,FdTable.firstFree]
    cases (List.range' oldFdnum.toNat (maxFds-oldFdnum.toNat)).find? (fun i => (t.fds i).isNone) with
    | none => exact ⟨-1,t,s,rfl,rfl,h⟩
    | some i => exact ⟨i,_,_,rfl,rfl,h.store hp⟩

end

/-- The table changes in the slot n at most, and only what was there is freed. -/
structure Frame (t : FdTable) (n : Int) (t' : FdTable) : Prop where
  fds : ∀ i : Nat, (i : Int)≠n → t'.fds i=t.fds i
  descriptors : ∀ q, (∀ i : Nat, (i : Int)=n → t.fds i≠some q) → t'.descriptors q=t.descriptors q

theorem Frame.refl (t : FdTable) (n : Int) : t.Frame n t := ⟨fun _ _ => rfl,fun _ _ => rfl⟩

theorem Frame.trans {t'' : FdTable} {n : Int} (h : t.Frame n t') (h' : t'.Frame n t'')
    (hn : ∀ i : Nat, (i : Int)=n → t'.fds i=none) : t.Frame n t'' := by
  refine ⟨fun i hi => (h'.fds i hi).trans (h.fds i hi),fun q hq => ?_⟩
  rw [h'.descriptors q,h.descriptors q hq]
  intro i hi hsome
  rw [hn i hi] at hsome
  cases hsome

theorem frame_store (t : FdTable) (i p : Nat) : t.Frame i (t.store i p) := by
  refine ⟨fun j hj => ?_,fun _ _ => rfl⟩
  rw [store_fds,if_neg (fun h => hj (congrArg Nat.cast h))]

theorem frame_drop (hi : t.fds i=some p) : t.Frame i (t.drop i p d e) := by
  refine ⟨fun j hj => ?_,fun q hq => ?_⟩
  · rw [drop_fds,if_neg (fun h => hj (congrArg Nat.cast h))]
  · rw [drop_descriptors,if_neg]
    rintro rfl
    exact hq i rfl hi

end FdTable

inductive FdCall where
  | create (fd : Nat) (oldFdnum : Int) (specific : Bool)
  | close (fdnum : Int)

inductive FdAnswer where
  | fdnum (n : Int)
  | closed (ok : Bool)

def fdCall (t : FdTable) : FdCall → Option (FdAnswer × FdTable)
  | .create fd oldFdnum specific =>
    (t.fdnumCreateFromFd fd oldFdnum specific).map (fun x => (.fdnum x.1,x.2))
  | .close fdnum => (t.fdnumClose fdnum).map (fun x => (.closed x.1,x.2))

/-- n is the least free slot from oldFdnum on, and -1 if there is none. -/
structure FdTable.LeastFree (t : FdTable) (oldFdnum n : Int) : Prop where
  none_iff : n=-1 ↔ (oldFdnum < 0 ∨ maxFds ≤ oldFdnum) ∨
    ∀ i : Nat, oldFdnum ≤ i → i < maxFds → t.fds i≠none
  least : n≠-1 → oldFdnum ≤ n ∧ n < maxFds ∧ t.fds n.toNat=none ∧
    ∀ i : Nat, oldFdnum ≤ i → i < n → t.fds i≠none

def FdCall.Correct (t : FdTable) : FdCall → FdAnswer → FdTable → Prop
  | .create fd oldFdnum specific,.fdnum n,t' =>
    (specific=false → t.LeastFree oldFdnum n) ∧
    (specific=true → 0 ≤ oldFdnum → oldFdnum < maxFds → n=oldFdnum ∧
      ∀ q, t.fds oldFdnum.toNat=some q → t'.descriptors q=none) ∧
    (0 ≤ n → t'.fds n.toNat=some fd) ∧ t.Frame n t'
  | .close fdnum,.closed ok,t' =>
    (ok=true ↔ 0 ≤ fdnum ∧ fdnum < maxFds ∧ (t.fds fdnum.toNat).isSome) ∧
    (ok=true → t'.fds fdnum.toNat=none ∧ ∀ q, t.fds fdnum.toNat=some q → t'.descriptors q=none) ∧
    t.Frame fdnum t'
  | _,_,_ => False

def FdCall.installs : FdCall → FdAnswer → Option Nat
  | .create fd _ _,.fdnum n => if n=-1 then none else some fd
  | _,_ => none

def installed (calls : List FdCall) (answers : List FdAnswer) : List Nat :=
  (calls.zip answers).foldl (fun ps x => (x.1.installs x.2).toList++ps) []

namespace FdTable

variable {t u : FdTable} {i p q d : Nat} {e : FileDescription}

theorem Unused.drop (h : t.Unused q) (hi : t.fds i=some p) : (t.drop i p d e).Unused q := by
  have hne : q≠p := by
    rintro rfl
    exact h.free i hi
  refine ⟨by rw [drop_descriptors,if_neg hne]; exact h.live,fun j hj => ?_⟩
  rw [drop_fds] at hj
  exact h.free j (Option.ite_none_left_eq_some.mp hj).2

theorem Unused.store (h : t.Unused q) (hne : q≠p) : (t.store i p).Unused q := by
  refine ⟨h.live,fun j hj => ?_⟩
  rw [store_fds] at hj
  split at hj
  · cases hj
    exact hne rfl
  · exact h.free j hj

structure Closed (t : FdTable) (fdnum : Int) (ok : Bool) (u : FdTable) : Prop where
  sound : u.Sound
  unused : ∀ q, t.Unused q → u.Unused q
  frame : t.Frame fdnum u
  ok_iff : ok=true ↔ 0 ≤ fdnum ∧ fdnum < maxFds ∧ (t.fds fdnum.toNat).isSome
  empty : 0 ≤ fdnum → fdnum < maxFds → u.fds fdnum.toNat=none ∧
    ∀ q, t.fds fdnum.toNat=some q → u.descriptors q=none

theorem Sound.closed (h : t.Sound) (fdnum : Int) :
    ∃ ok u, t.fdnumClose fdnum=some (ok,u) ∧ t.Closed fdnum ok u := by
  rcases h.fdnumClose fdnum with ⟨p,fd,e,h1,h2,hi,hp,he,hclose⟩ | ⟨hno,hclose⟩
  · have hcast : (fdnum.toNat : Int)=fdnum := Int.toNat_of_nonneg h1
    refine ⟨true,_,hclose,h.drop hi hp he,fun q hq => hq.drop hi,?_,?_,?_⟩
    · have hframe := frame_drop (d := fd.description) (e := e) hi
      rwa [hcast] at hframe
    · exact iff_of_true rfl ⟨h1,h2,by rw [hi]; rfl⟩
    · intro _ _
      refine ⟨by rw [drop_fds,if_pos rfl],fun q hq => ?_⟩
      rw [hi] at hq
      cases hq
      rw [drop_descriptors,if_pos rfl]
  · refine ⟨false,t,hclose,h,fun _ hq => hq,.refl t fdnum,iff_of_false Bool.false_ne_true hno,?_⟩
    intro h1 h2
    have hnone : t.fds fdnum.toNat=none := by
      rw [← Option.not_isSome_iff_eq_none]
      exact fun hsome => hno ⟨h1,h2,hsome⟩
    exact ⟨hnone,fun q hq => by rw [hnone] at hq; cases hq⟩

structure Created (t : FdTable) (p : Nat) (oldFdnum : Int) (specific : Bool) (n : Int) (u : FdTable) :
    Prop where
  correct : FdCall.Correct t (.create p oldFdnum specific) (.fdnum n) u
  failed : n=-1 → u=t
  sound : n≠-1 → t.Unused p → u.Sound
  unused : ∀ q, q≠p → t.Unused q → u.Unused q

theorem Sound.created_none (h : t.Sound) {oldFdnum : Int} {specific : Bool}
    (hno : (oldFdnum < 0 ∨ maxFds ≤ oldFdnum) ∨
      specific=false ∧ ∀ i : Nat, oldFdnum ≤ i → i < maxFds → t.fds i≠none) :
    t.Created p oldFdnum specific (-1) t := by
  refine ⟨⟨?_,?_,?_,.refl t _⟩,fun _ => rfl,fun _ _ => h,fun _ _ hq => hq⟩
  · intro _
    exact ⟨iff_of_true rfl (hno.imp_right And.right),fun hne => absurd rfl hne⟩
  · intro hs h1 h2
    rcases hno with hrange | ⟨hspecific,-⟩
    · omega
    · rw [hs] at hspecific
      cases hspecific
  · intro hn
    omega

theorem Sound.created (h : t.Sound) (p : Nat) (oldFdnum : Int) (specific : Bool) :
    ∃ n u, t.fdnumCreateFromFd p oldFdnum specific=some (n,u) ∧ t.Created p oldFdnum specific n u := by
  rw [fdnumCreateFromFd]
  by_cases hrange : oldFdnum < 0 ∨ maxFds ≤ oldFdnum
  · exact ⟨-1,t,if_pos hrange,h.created_none (.inl hrange)⟩
  rw [if_neg hrange]
  have hcast : (oldFdnum.toNat : Int)=oldFdnum := Int.toNat_of_nonneg (by omega)
  cases specific with
  | true =>
    obtain ⟨ok,u,hclose,hu⟩ := h.closed oldFdnum
    obtain ⟨hempty,hfreed⟩ := hu.empty (by omega) (by omega)
    have hstore := frame_store u oldFdnum.toNat p
    rw [hcast] at hstore
    refine ⟨oldFdnum,u.store oldFdnum.toNat p,by rw [if_pos rfl,hclose]; rfl,⟨?_,?_,?_,?_⟩,?_,?_,?_⟩
    · intro hs
      cases hs
    · exact fun _ _ _ => ⟨rfl,hfreed⟩
    · intro _
      rw [store_fds,if_pos rfl]
    · refine hu.frame.trans hstore (fun i hi => ?_)
      rw [← hi,Int.toNat_natCast] at hempty
      exact hempty
    · intro hn
      omega
    · exact fun _ hp => hu.sound.store (hu.unused p hp)
    · exact fun q hne hq => (hu.unused q hq).store hne
  | false =>
    rw [if_neg Bool.false_ne_true]
    rcases t.firstFree_cases oldFdnum.toNat with ⟨hnone,hfull⟩ | ⟨i,hsome,hle,hlt,hfree,hleast⟩
    · rw [hnone]
      exact ⟨-1,t,rfl,h.created_none (.inr ⟨rfl,fun i h1 h2 => hfull i (by omega) h2⟩)⟩
    · rw [hsome]
      refine ⟨i,t.store i p,rfl,⟨?_,?_,?_,frame_store t i p⟩,?_,?_,?_⟩
      · intro _
        refine ⟨iff_of_false (by omega) ?_,fun _ => ⟨by omega,by omega,hfree,?_⟩⟩
        · rintro (hbad | hfull)
          · exact hrange hbad
          · exact hfull i (by omega) hlt hfree
        · exact fun j h1 h2 => hleast j (by omega) (by omega)
      · intro hs
        cases hs
      · intro _
        rw [Int.toNat_natCast,store_fds,if_pos rfl]
      · intro hn
        omega
      · exact fun _ hp => h.store hp
      · exact fun q hne hq => hq.store hne

/-- Every call returns, and does what it has to. -/
theorem Sound.fdCall (h : t.Sound) (c : FdCall) : ∃ o u, fdCall t c=some (o,u) ∧ c.Correct t o u := by
  cases c with
  | create p oldFdnum specific =>
    obtain ⟨n,u,hcreate,hu⟩ := h.created p oldFdnum specific
    exact ⟨.fdnum n,u,by rw [Fs.fdCall,hcreate]; rfl,hu.correct⟩
  | close fdnum =>
    obtain ⟨ok,u,hclose,hu⟩ := h.closed fdnum
    refine ⟨.closed ok,u,by rw [Fs.fdCall,hclose]; rfl,hu.ok_iff,fun hok => ?_,hu.frame⟩
    obtain ⟨h1,h2,-⟩ := hu.ok_iff.mp hok
    exact hu.empty h1 h2

/-- The table after a run that has put the descriptors ps into slots. -/
structure Since (t₀ t : FdTable) (ps : List Nat) : Prop where
  sound : t.Sound
  unused : ∀ p, p∉ps → t₀.Unused p → t.Unused p

theorem Since.fdCall {t₀ : FdTable} {ps : List Nat} {c : FdCall} {o : FdAnswer}
    (h : ps.Nodup → (∀ p∈ps, t₀.Unused p) → t₀.Since t ps) (hc : Fs.fdCall t c=some (o,u))
    (honce : ((c.installs o).toList++ps).Nodup) (hnew : ∀ p∈(c.installs o).toList++ps, t₀.Unused p) :
    t₀.Since u ((c.installs o).toList++ps) := by
  obtain ⟨hsound,hunused⟩ := h (List.nodup_append.mp honce).2.1
    (fun p hp => hnew p (List.mem_append_right _ hp))
  cases c with
  | create p oldFdnum specific =>
    obtain ⟨n,u',hcreate,hu⟩ := hsound.created p oldFdnum specific
    rw [Fs.fdCall,hcreate] at hc
    cases hc
    rw [FdCall.installs] at honce hnew ⊢
    by_cases hn : n=-1
    · rw [if_pos hn,hu.failed hn]
      exact ⟨hsound,hunused⟩
    · rw [if_neg hn,Option.toList_some,List.singleton_append] at honce hnew ⊢
      have hp := hunused p (List.nodup_cons.mp honce).1 (hnew p List.mem_cons_self)
      refine ⟨hu.sound hn hp,fun q hq h₀ => ?_⟩
      obtain ⟨hne,hq⟩ := not_or.mp (List.mem_cons.not.mp hq)
      exact hu.unused q hne (hunused q hq h₀)
  | close fdnum =>
    obtain ⟨ok,u',hclose,hu⟩ := hsound.closed fdnum
    rw [Fs.fdCall,hclose] at hc
    cases hc
    exact ⟨hu.sound,fun q hq h₀ => hu.unused q (hunused q hq h₀)⟩

end FdTable

/-- Whatever is created and closed, as long as no descriptor is installed twice: none is
in two slots or freed while it is in one, and every call answers as it has to. -/
theorem fdtable_runs (t₀ t : FdTable) (calls : List FdCall) (answers : List FdAnswer)
    (hstart : t₀.Sound) (hrun : trace fdCall t₀ calls=some (answers,t))
    (honce : (installed calls answers).Nodup) (hnew : ∀ p∈installed calls answers, t₀.Unused p) :
    (∀ i j p, t.fds i=some p → t.fds j=some p → i=j) ∧
    (∀ i p, t.fds i=some p → (t.descriptors p).isSome) ∧
    ∀ c, ∃ o t', fdCall t c=some (o,t') ∧ c.Correct t o t' := by
  let R (t : FdTable) (ps : List Nat) : Prop :=
    ps.Nodup → (∀ p∈ps, t₀.Unused p) → t₀.Since t ps
  have hstep : ∀ t ps c o t', R t ps → True → fdCall t c=some (o,t') →
      R t' ((c.installs o).toList++ps) :=
    fun t ps c o t' h _ hc honce hnew => FdTable.Since.fdCall h hc honce hnew
  have hs : R t (installed calls answers) :=
    trace_record hstep (fun _ _ => ⟨hstart,fun _ _ hp => hp⟩) (fun _ _ => trivial) hrun
  obtain ⟨hsound,-⟩ := hs honce hnew
  exact ⟨hsound.once,hsound.live,hsound.fdCall⟩

def FdTable.twoNew : FdTable where
  fds _ := none
  descriptors p := if p < 2 then some ⟨p⟩ else none
  descriptions d := if d < 2 then some ⟨1,0,.other 0,none⟩ else none

theorem FdTable.twoNew_sound : FdTable.twoNew.Sound := by
  refine ⟨fun _ _ _ h => (by cases h),fun _ _ h => (by cases h),fun p fd hp => ?_⟩
  obtain ⟨hlt,hfd⟩ := Option.ite_none_right_eq_some.mp hp
  cases hfd
  refine ⟨_,if_pos hlt,by decide,fun S hS => Finset.card_le_one.mpr (fun a ha b hb => ?_)⟩
  have hpoint : ∀ q∈S, q=p := by
    intro q hq
    obtain ⟨fd,hfd,hd⟩ := Option.map_eq_some_iff.mp (hS q hq)
    obtain ⟨-,hfd⟩ := Option.ite_none_right_eq_some.mp hfd
    cases hfd
    exact hd
  rw [hpoint a ha,hpoint b hb]

/-- The second descriptor takes the place of the first, and is closed. -/
theorem fdtable_runs_replaced : ∃ answers t,
    trace fdCall FdTable.twoNew [.create 0 0 false,.create 1 0 true,.close 0]=some (answers,t) ∧
    ∀ c, ∃ o t', fdCall t c=some (o,t') ∧ c.Correct t o t' := by
  have hrun : ∃ t, trace fdCall FdTable.twoNew [.create 0 0 false,.create 1 0 true,.close 0]=
      some ([.fdnum 0,.fdnum 0,.closed true],t) := ⟨_,rfl⟩
  obtain ⟨t,hrun⟩ := hrun
  refine ⟨_,t,hrun,(fdtable_runs _ _ _ _ FdTable.twoNew_sound hrun (by decide) (fun p hp => ?_)).2.2⟩
  have hp : p=1 ∨ p=0 := by simpa [installed,FdCall.installs] using hp
  rcases hp with rfl | rfl <;> exact ⟨rfl,fun i h => by cases h⟩

end X64OS.Fs
