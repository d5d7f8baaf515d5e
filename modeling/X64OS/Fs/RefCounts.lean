import X64OS.Fs.Descriptors
import Mathlib.Algebra.BigOperators.Group.Finset.Piecewise

namespace X64OS.Fs

open Framework Function
open Option (map_eq_some_iff bind_some map_some isSome_iff_exists)

/-- What the function of a resource answers, and what it makes of the resources. -/
abbrev ResourceOp := (Nat → Option Resource) → Description → Option (Int × (Nat → Option Resource))

section
variable (s : Files)

def Files.clearFd (thread i : Nat) : Files :=
  { s with fds := update s.fds thread (update (s.fds thread) i none) }

def Files.setFd (thread i : Nat) (fd : Descriptor) : Files :=
  { s with fds := update s.fds thread (update (s.fds thread) i (some fd)) }

def Files.release (d : Nat) (e : Description) : Files :=
  if e.refcount=1 then { s with descriptions := update s.descriptions d none }
  else s.setDescription d { e with refcount := sub64 e.refcount 1 }

def fdnumClose (thread : Nat) (fdnum : Int) : Option (Bool × Files) :=
  if fdnum < 0 ∨ maxFds ≤ fdnum then some (false,s)
  else
    match s.fds thread fdnum.toNat with
    | none => some (false,s)
    | some fd => (s.descriptions fd.description).map (fun e =>
      (true,(s.release fd.description e).clearFd thread fdnum.toNat))

def fdnumCreateSpecific (thread : Nat) (fd : Descriptor) (oldFdnum : Int) : Option (Int × Files) :=
  if oldFdnum < 0 ∨ maxFds ≤ oldFdnum then some (-1,s)
  else (fdnumClose s thread oldFdnum).map (fun x => (oldFdnum,x.2.setFd thread oldFdnum.toNat fd))

def openResource (thread res : Nat) (oldFdnum : Int) (specific : Bool) : Option (Int × Files) :=
  let x := fdCreateFromResource s res
  if specific then fdnumCreateSpecific x.2 thread x.1 oldFdnum
  else some (fdnumCreateFromFd x.2 thread x.1 oldFdnum)

/-- The body of the system calls: fd_from_fdnum, then the function of the resource, then
what is done with the answer. -/
def onFd (thread : Nat) (fdnum : Int) (op : ResourceOp)
    (done : Nat → Description → Int → Files → Int × Files) : Option (Int × Files) :=
  (fdFromFdnum s thread fdnum).bind (fun x =>
    match x.1 with
    | none => some (-1,x.2)
    | some fd =>
      (x.2.descriptions fd.description).bind (fun e =>
        (op x.2.resources e).map (fun y =>
          done fd.description e y.1 { x.2 with resources := y.2 })))

end

def advanceOffset (d : Nat) (e : Description) (ret : Int) (s : Files) : Int × Files :=
  if ret < 0 then (-1,s)
  else (ret,s.setDescription d { e with offset := add64 e.offset ret.toNat })

section
variable (s : Files) (thread : Nat) (fdnum : Int) (op : ResourceOp)

def syscallReadWrite : Option (Int × Files) :=
  onFd s thread fdnum op advanceOffset

def syscallPread : Option (Int × Files) :=
  onFd s thread fdnum op (fun _ _ ret s => if ret < 0 then (-1,s) else (ret,s))

def syscallIoctl : Option (Int × Files) :=
  onFd s thread fdnum op (fun _ _ ret s => (ret,s))

end

def tmpfsReadOp (count : Nat) : ResourceOp := fun rs e =>
  (rs e.res).bind (fun r => (tmpfsResourceRead r e.offset count).map (fun y => ((y.1 : Int),rs)))

def tmpfsWriteOp (room : Nat → Bool) (buf : Str) : ResourceOp := fun rs e =>
  (rs e.res).bind (fun r => (tmpfsResourceWrite room r buf e.offset).map (fun y =>
    (y.1,update rs e.res (some y.2))))

theorem syscallRead_eq (s : Files) (thread : Nat) (fdnum : Int) (count : Nat) :
    (syscallRead s thread fdnum count).map (fun x => (x.1.1,x.2))=
      syscallReadWrite s thread fdnum (tmpfsReadOp count) := by
  unfold syscallRead syscallReadWrite onFd
  rw [Option.map_bind]
  congr 1
  funext x
  obtain ⟨fd | fd,s'⟩ := x
  · rfl
  · dsimp only [Function.comp]
    rw [Option.map_bind]
    congr 1
    funext e
    dsimp only [Function.comp,tmpfsReadOp]
    rw [Option.map_bind,Option.map_bind]
    congr 1
    funext r
    dsimp only [Function.comp]
    rw [Option.map_map,Option.map_map]
    congr 1

theorem syscallWrite_eq (room : Nat → Bool) (s : Files) (thread : Nat) (fdnum : Int) (buf : Str) :
    syscallWrite room s thread fdnum buf=
      syscallReadWrite s thread fdnum (tmpfsWriteOp room buf) := by
  unfold syscallWrite syscallReadWrite onFd
  congr 1
  funext x
  obtain ⟨fd | fd,s'⟩ := x
  · rfl
  · dsimp only
    congr 1
    funext e
    dsimp only [tmpfsWriteOp]
    rw [Option.map_bind]
    congr 1
    funext r
    dsimp only [Function.comp]
    rw [Option.map_map]
    rfl

def slotsOf (fds : Nat → Option Descriptor) (d : Nat) : Nat :=
  ((Finset.range maxFds).filter (fun i => (fds i).map Descriptor.description=some d)).card

theorem slotsOf_update (fds : Nat → Option Descriptor) {i : Nat} (hi : i < maxFds)
    (v : Option Descriptor) (d : Nat) :
    slotsOf (update fds i v) d+(if (fds i).map Descriptor.description=some d then 1 else 0)=
      slotsOf fds d+(if v.map Descriptor.description=some d then 1 else 0) := by
  have hmem : i∈Finset.range maxFds := Finset.mem_range.mpr hi
  have hrest : ∑ j∈(Finset.range maxFds).erase i,
        (if (update fds i v j).map Descriptor.description=some d then 1 else 0)=
      ∑ j∈(Finset.range maxFds).erase i,
        (if (fds j).map Descriptor.description=some d then 1 else 0) := by
    refine Finset.sum_congr rfl (fun j hj => ?_)
    rw [update_of_ne (Finset.ne_of_mem_erase hj)]
  unfold slotsOf
  rw [Finset.card_filter,Finset.card_filter,← Finset.add_sum_erase _ _ hmem,
    ← Finset.add_sum_erase _ _ hmem,hrest,update_self]
  omega

theorem slotsOf_clear {fds : Nat → Option Descriptor} {i : Nat} (hi : i < maxFds) {fd : Descriptor}
    (hfd : fds i=some fd) (d : Nat) :
    slotsOf (update fds i none) d+(if fd.description=d then 1 else 0)=slotsOf fds d := by
  have hu := slotsOf_update fds hi none d
  rw [hfd,map_some,Option.map_none,if_neg (show ¬(none : Option Nat)=some d by rintro ⟨⟩)] at hu
  simpa only [Option.some.injEq,Nat.add_zero] using hu

theorem slotsOf_le (fds : Nat → Option Descriptor) (d : Nat) : slotsOf fds d ≤ 256 :=
  (Finset.card_filter_le _ _).trans (Finset.card_range maxFds).le

theorem slotsOf_pos_iff (fds : Nat → Option Descriptor) (d : Nat) :
    0 < slotsOf fds d ↔ ∃ i, i < maxFds ∧ (fds i).map Descriptor.description=some d := by
  rw [slotsOf,Finset.card_pos]
  simp only [Finset.Nonempty,Finset.mem_filter,Finset.mem_range]

/-- Every count is right, but for one reference to the description that is pending. -/
structure Files.Counts (s : Files) (thread : Nat) (pending : Option Nat) : Prop where
  counted : ∀ d e, s.descriptions d=some e →
    e.refcount=slotsOf (s.fds thread) d+(if pending=some d then 1 else 0)
  live : ∀ i, i < maxFds → ∀ fd, s.fds thread i=some fd → (s.descriptions fd.description).isSome
  fresh : ∀ d, (s.descriptions d).isSome → d < s.nextDescription
  held : ∀ d, pending=some d → (s.descriptions d).isSome

namespace Files

variable {s s' : Files} {thread d : Nat} {pending : Option Nat} {e : Description}

theorem Counts.of_refcounts (h : s.Counts thread pending) (hfds : s'.fds thread=s.fds thread)
    (hrefs : ∀ d, (s'.descriptions d).map Description.refcount=
      (s.descriptions d).map Description.refcount)
    (hnext : s'.nextDescription=s.nextDescription) : s'.Counts thread pending := by
  have hsome : ∀ d, (s'.descriptions d).isSome=(s.descriptions d).isSome := by
    intro d
    have := congrArg Option.isSome (hrefs d)
    rwa [Option.isSome_map,Option.isSome_map] at this
  refine ⟨?_,?_,?_,?_⟩
  · intro d e he
    have hd := hrefs d
    rw [he,map_some] at hd
    obtain ⟨e₀,he₀,heq⟩ := map_eq_some_iff.mp hd.symm
    rw [hfds,← heq]
    exact h.counted d e₀ he₀
  · intro i hi fd hfd
    rw [hsome]
    exact h.live i hi fd (hfds ▸ hfd)
  · intro d hd
    rw [hnext]
    exact h.fresh d (hsome d ▸ hd)
  · intro d hd
    rw [hsome]
    exact h.held d hd

theorem Counts.refcount_le (h : s.Counts thread pending) (he : s.descriptions d=some e) :
    e.refcount ≤ 257 := by
  have hc := h.counted d e he
  have hle := slotsOf_le (s.fds thread) d
  split at hc <;> omega

theorem Counts.withPending (h : s.Counts thread none) {e' : Description}
    (hfds : s'.fds thread=s.fds thread)
    (hdesc : ∀ j, s'.descriptions j=if j=d then some e' else s.descriptions j)
    (href : e'.refcount=slotsOf (s.fds thread) d+1) (hd : d < s'.nextDescription)
    (hnext : s.nextDescription ≤ s'.nextDescription) : s'.Counts thread (some d) := by
  refine ⟨?_,?_,?_,?_⟩
  · intro j e he
    rw [hdesc] at he
    rw [hfds]
    by_cases hj : j=d
    · rw [if_pos hj] at he
      rw [← Option.some.inj he,hj,if_pos rfl]
      exact href
    · rw [if_neg hj] at he
      rw [if_neg (fun hd => hj (Option.some.inj hd).symm)]
      have hc := h.counted j e he
      rwa [if_neg (by rintro ⟨⟩)] at hc
  · intro i hi fd hfd
    rw [hdesc]
    split
    · rfl
    · exact h.live i hi fd (hfds ▸ hfd)
  · intro j hj
    rw [hdesc] at hj
    by_cases hjd : j=d
    · exact hjd ▸ hd
    · rw [if_neg hjd] at hj
      exact Nat.lt_of_lt_of_le (h.fresh j hj) hnext
  · intro j hj
    rw [hdesc,if_pos (Option.some.inj hj).symm]
    rfl

theorem Counts.addRef (h : s.Counts thread none) (he : s.descriptions d=some e) :
    (s.setDescription d { e with refcount := add64 e.refcount 1 }).Counts thread (some d) := by
  have hle := h.refcount_le he
  refine h.withPending rfl (fun j => setDescription_descriptions _ _ _ _) ?_ ?_ (Nat.le_refl _)
  · change add64 e.refcount 1=_
    rw [add64_eq (by omega),h.counted d e he,if_neg (by rintro ⟨⟩)]
  · exact h.fresh d (by rw [he]; rfl)

theorem Counts.slotsOf_next (h : s.Counts thread pending) :
    slotsOf (s.fds thread) s.nextDescription=0 := by
  refine Nat.eq_zero_of_not_pos (fun hpos => ?_)
  obtain ⟨i,hi,hpoint⟩ := (slotsOf_pos_iff _ _).mp hpos
  obtain ⟨fd,hfd,hd⟩ := map_eq_some_iff.mp hpoint
  have hlt := h.fresh _ (h.live i hi fd hfd)
  rw [hd] at hlt
  exact Nat.lt_irrefl _ hlt

theorem Counts.create (h : s.Counts thread none) (res : Nat) :
    (fdCreateFromResource s res).2.Counts thread (some s.nextDescription) := by
  refine h.withPending rfl (fun j => setDescription_descriptions _ _ _ _) ?_ (Nat.lt_succ_self _)
    (Nat.le_succ _)
  rw [h.slotsOf_next]

theorem Counts.setFd (h : s.Counts thread (some d)) {i : Nat} (hi : i < maxFds)
    (hfree : s.fds thread i=none) : (s.setFd thread i ⟨d⟩).Counts thread none := by
  have hfds : (s.setFd thread i ⟨d⟩).fds thread=update (s.fds thread) i (some ⟨d⟩) :=
    update_self _ _ _
  refine ⟨?_,?_,h.fresh,fun j hj => by cases hj⟩
  · intro j e he
    have hcount := slotsOf_update (s.fds thread) hi (some ⟨d⟩) j
    rw [hfree,if_neg (by rintro ⟨⟩)] at hcount
    rw [hfds,if_neg (by rintro ⟨⟩)]
    have hc := h.counted j e he
    have hiff : (some (⟨d⟩ : Descriptor)).map Descriptor.description=some j ↔ some d=some j := Iff.rfl
    rw [if_congr hiff rfl rfl] at hcount
    omega
  · intro j hj fd hfd
    rw [hfds] at hfd
    rcases eq_or_ne j i with rfl | hne
    · rw [update_self] at hfd
      cases hfd
      exact h.held d rfl
    · rw [update_of_ne hne] at hfd
      exact h.live j hj fd hfd

section
variable (s : Files) (d : Nat) (e : Description)

@[simp] theorem fds_release : (s.release d e).fds=s.fds := by
  unfold release
  split <;> rfl

@[simp] theorem nextDescription_release : (s.release d e).nextDescription=s.nextDescription := by
  unfold release
  split <;> rfl

theorem descriptions_release (j : Nat) :
    (s.release d e).descriptions j=
      if j=d then (if e.refcount=1 then none else some { e with refcount := sub64 e.refcount 1 })
      else s.descriptions j := by
  unfold release
  split
  · exact update_apply _ _ _ _
  · exact setDescription_descriptions _ _ _ _

end

theorem fds_close (s : Files) (thread i d : Nat) (e : Description) :
    ((s.release d e).clearFd thread i).fds thread=update (s.fds thread) i none := by
  rw [← fds_release s d e]
  exact update_self _ _ _

theorem Counts.close (h : s.Counts thread pending) {i : Nat} (hi : i < maxFds) {fd : Descriptor}
    (hfd : s.fds thread i=some fd) (he : s.descriptions fd.description=some e) :
    ((s.release fd.description e).clearFd thread i).Counts thread pending := by
  have hfds := s.fds_close thread i fd.description e
  have hdesc : ∀ j, ((s.release fd.description e).clearFd thread i).descriptions j=_ :=
    descriptions_release s fd.description e
  have hcount := slotsOf_clear hi hfd
  have hself := hcount fd.description
  rw [if_pos rfl] at hself
  have hrefs := h.counted _ e he
  have hle := h.refcount_le he
  refine ⟨?_,?_,?_,?_⟩
  · intro j e' he'
    rw [hdesc] at he'
    rw [hfds]
    by_cases hj : j=fd.description
    · subst hj
      rw [if_pos rfl] at he'
      split at he'
      · cases he'
      · rw [← Option.some.inj he',sub64_eq (Nat.lt_of_le_of_lt hle (by decide)) (by omega)]
        dsimp only
        omega
    · rw [if_neg hj] at he'
      have hsame := hcount j
      rw [if_neg (Ne.symm hj)] at hsame
      have hc := h.counted j e' he'
      omega
  · intro j hj fd' hfd'
    rw [hfds] at hfd'
    have hne : j≠i := by
      rintro rfl
      rw [update_self] at hfd'
      cases hfd'
    have hold := hfd'
    rw [update_of_ne hne] at hold
    rw [hdesc]
    by_cases hd : fd'.description=fd.description
    · -- another slot has the description too, so this was not its last reference
      have hpos : 0 < slotsOf (update (s.fds thread) i none) fd.description :=
        (slotsOf_pos_iff _ _).mpr ⟨j,hj,by rw [hfd',← hd]; rfl⟩
      rw [if_pos hd,if_neg (by omega)]
      rfl
    · rw [if_neg hd]
      exact h.live j hj fd' hold
  · intro j hj
    show j < (s.release fd.description e).nextDescription
    rw [nextDescription_release]
    rw [hdesc] at hj
    by_cases hd : j=fd.description
    · rw [hd]
      exact h.fresh _ (by rw [he]; rfl)
    · rw [if_neg hd] at hj
      exact h.fresh j hj
  · intro j hj
    rw [hdesc]
    split
    · rename_i hd
      rw [hd] at hj
      rw [if_pos hj] at hrefs
      rw [if_neg (by omega)]
      rfl
    · exact h.held j hj

theorem Counts.fdnumClose (h : s.Counts thread pending) (fdnum : Int) :
    ∃ x, fdnumClose s thread fdnum=some x ∧ x.2.Counts thread pending ∧
      (0 ≤ fdnum → fdnum < maxFds → x.2.fds thread fdnum.toNat=none) := by
  unfold Fs.fdnumClose
  split
  · exact ⟨_,rfl,h,fun h1 h2 => by omega⟩
  rename_i hrange
  split
  · rename_i hfd
    exact ⟨_,rfl,h,fun _ _ => hfd⟩
  · rename_i fd hfd
    have hi : fdnum.toNat < maxFds := by omega
    obtain ⟨e,he⟩ := isSome_iff_exists.mp (h.live _ hi fd hfd)
    rw [he]
    refine ⟨_,rfl,h.close hi hfd he,fun _ _ => ?_⟩
    dsimp only
    rw [fds_close,update_self]

end Files

inductive TableCall where
  | openFile (res : Nat) (oldFdnum : Int) (specific : Bool)
  | read (fdnum : Int) (op : ResourceOp)
  | write (fdnum : Int) (op : ResourceOp)
  | pread (fdnum : Int) (op : ResourceOp)
  | ioctl (fdnum : Int) (op : ResourceOp)
  | close (fdnum : Int)

def tableCall (thread : Nat) (s : Files) : TableCall → Option Files
  | .openFile res oldFdnum specific => (openResource s thread res oldFdnum specific).map Prod.snd
  | .read fdnum op => (syscallReadWrite s thread fdnum op).map Prod.snd
  | .write fdnum op => (syscallReadWrite s thread fdnum op).map Prod.snd
  | .pread fdnum op => (syscallPread s thread fdnum op).map Prod.snd
  | .ioctl fdnum op => (syscallIoctl s thread fdnum op).map Prod.snd
  | .close fdnum => (fdnumClose s thread fdnum).map Prod.snd

def Files.IsOpen (s : Files) (thread : Nat) (fdnum : Int) : Prop :=
  0 ≤ fdnum ∧ fdnum < maxFds ∧ (s.fds thread fdnum.toNat).isSome

/-- An open for which there is a slot; any other call but a close on no open descriptor. -/
def TableCall.Kept (thread : Nat) (s : Files) : TableCall → Prop
  | .openFile _ oldFdnum specific => 0 ≤ oldFdnum ∧ oldFdnum < maxFds ∧
    (specific=true ∨ ∃ i, i < maxFds ∧ oldFdnum.toNat ≤ i ∧ s.fds thread i=none)
  | .read fdnum _ | .write fdnum _ | .pread fdnum _ | .ioctl fdnum _ => ¬s.IsOpen thread fdnum
  | .close _ => True

instance (thread : Nat) (s : Files) : (l : TableCall) → Decidable (l.Kept thread s)
  | .openFile .. => inferInstanceAs (Decidable (_ ∧ _ ∧ (_ ∨ _)))
  | .read .. | .write .. | .pread .. | .ioctl .. => inferInstanceAs (Decidable (¬(_ ∧ _ ∧ _)))
  | .close _ => inferInstanceAs (Decidable True)

namespace Files

variable {s s' : Files} {thread : Nat}

def Stepped (thread : Nat) (kept : Prop) (s' : Files) : Prop :=
  (kept ∧ s'.Counts thread none) ∨ (¬kept ∧ ∃ d, s'.Counts thread (some d))

theorem Counts.openResource (h : s.Counts thread none) {res : Nat} {oldFdnum : Int} {specific : Bool}
    {x : Int × Files} (hx : openResource s thread res oldFdnum specific=some x) :
    Stepped thread (TableCall.Kept thread s (.openFile res oldFdnum specific)) x.2 := by
  have hnew := h.create res
  unfold Fs.openResource at hx
  dsimp only at hx
  by_cases hrange : oldFdnum < 0 ∨ maxFds ≤ oldFdnum
  · have hkept : ¬TableCall.Kept thread s (.openFile res oldFdnum specific) := by
      rintro ⟨h1,h2,-⟩
      omega
    rw [fdnumCreateSpecific,fdnumCreateFromFd,if_pos hrange,if_pos hrange,ite_self] at hx
    cases hx
    exact .inr ⟨hkept,_,hnew⟩
  · have h1 : 0 ≤ oldFdnum := by omega
    have h2 : oldFdnum < maxFds := by omega
    have hi : oldFdnum.toNat < maxFds := by omega
    cases specific with
    | true =>
      rw [if_pos rfl,fdnumCreateSpecific,if_neg hrange] at hx
      obtain ⟨y,hy,hcounts,hfree⟩ := hnew.fdnumClose oldFdnum
      rw [hy] at hx
      cases hx
      exact .inl ⟨⟨h1,h2,.inl rfl⟩,hcounts.setFd hi (hfree h1 h2)⟩
    | false =>
      rw [if_neg Bool.false_ne_true,fdnumCreateFromFd,if_neg hrange] at hx
      split at hx
      · rename_i hfind
        cases hx
        refine .inr ⟨?_,_,hnew⟩
        rintro ⟨-,-,hs | ⟨i,hlt,hle,hfree⟩⟩
        · cases hs
        · have hnot := List.find?_eq_none.mp hfind i (List.mem_range'_1.mpr (by omega))
          have hfree' : (fdCreateFromResource s res).2.fds thread i=none := hfree
          rw [hfree'] at hnot
          exact hnot rfl
      · rename_i i hfind
        cases hx
        have hmem := List.mem_range'_1.mp (List.mem_of_find?_eq_some hfind)
        have hnone := List.find?_some hfind
        have hfree : s.fds thread i=none := Option.isNone_iff_eq_none.mp hnone
        have hlt : i < maxFds := by omega
        exact .inl ⟨⟨h1,h2,.inr ⟨i,hlt,hmem.1,hfree⟩⟩,hnew.setFd hlt hfree⟩

theorem Counts.onFd (h : s.Counts thread none) {fdnum : Int} {op : ResourceOp}
    {done : Nat → Description → Int → Files → Int × Files}
    (hdone : ∀ d e ret s, s.descriptions d=some e → (done d e ret s).2.fds=s.fds ∧
      (done d e ret s).2.nextDescription=s.nextDescription ∧
      ∀ j, ((done d e ret s).2.descriptions j).map Description.refcount=
        (s.descriptions j).map Description.refcount)
    {x : Int × Files} (hx : onFd s thread fdnum op done=some x) :
    Stepped thread (¬s.IsOpen thread fdnum) x.2 := by
  unfold Fs.onFd Fs.fdFromFdnum at hx
  by_cases hrange : fdnum < 0 ∨ maxFds ≤ fdnum
  · rw [if_pos hrange] at hx
    cases hx
    refine .inl ⟨?_,h⟩
    rintro ⟨h1,h2,-⟩
    omega
  rw [if_neg hrange] at hx
  cases hfd : s.fds thread fdnum.toNat with
  | none =>
    rw [hfd] at hx
    cases hx
    refine .inl ⟨?_,h⟩
    rintro ⟨-,-,hopen⟩
    rw [hfd] at hopen
    cases hopen
  | some fd =>
    have hi : fdnum.toNat < maxFds := by omega
    obtain ⟨e,he⟩ := isSome_iff_exists.mp (h.live _ hi fd hfd)
    have hopen : s.IsOpen thread fdnum := ⟨by omega,by omega,by rw [hfd]; rfl⟩
    have href := h.addRef he
    rw [hfd] at hx
    dsimp only at hx
    rw [he,map_some,bind_some] at hx
    dsimp only at hx
    rw [setDescription_descriptions,if_pos rfl,bind_some] at hx
    obtain ⟨y,-,rfl⟩ := map_eq_some_iff.mp hx
    obtain ⟨hfds,hnext,hrefs⟩ := hdone fd.description { e with refcount := add64 e.refcount 1 } y.1
      { s.setDescription fd.description { e with refcount := add64 e.refcount 1 } with resources := y.2 }
      (by
        show (s.setDescription _ _).descriptions _=_
        rw [setDescription_descriptions,if_pos rfl])
    exact .inr ⟨not_not.mpr hopen,_,href.of_refcounts (congrFun hfds thread) hrefs hnext⟩

theorem refcounts_advanceOffset (d : Nat) (e : Description) (ret : Int) (s : Files)
    (he : s.descriptions d=some e) : (advanceOffset d e ret s).2.fds=s.fds ∧
      (advanceOffset d e ret s).2.nextDescription=s.nextDescription ∧
      ∀ j, ((advanceOffset d e ret s).2.descriptions j).map Description.refcount=
        (s.descriptions j).map Description.refcount := by
  unfold advanceOffset
  split
  · exact ⟨rfl,rfl,fun _ => rfl⟩
  · refine ⟨rfl,rfl,fun j => ?_⟩
    dsimp only
    rw [setDescription_descriptions]
    split
    · rename_i hj
      rw [hj,he]
      rfl
    · rfl

theorem Counts.tableCall (h : s.Counts thread none) {l : TableCall}
    (hl : tableCall thread s l=some s') : Stepped thread (l.Kept thread s) s' := by
  cases l with
  | openFile res oldFdnum specific =>
    obtain ⟨x,hx,rfl⟩ := map_eq_some_iff.mp hl
    exact h.openResource hx
  | read fdnum op =>
    obtain ⟨x,hx,rfl⟩ := map_eq_some_iff.mp hl
    exact h.onFd refcounts_advanceOffset hx
  | write fdnum op =>
    obtain ⟨x,hx,rfl⟩ := map_eq_some_iff.mp hl
    exact h.onFd refcounts_advanceOffset hx
  | pread fdnum op =>
    obtain ⟨x,hx,rfl⟩ := map_eq_some_iff.mp hl
    refine h.onFd (fun d e ret s _ => ?_) hx
    split <;> exact ⟨rfl,rfl,fun _ => rfl⟩
  | ioctl fdnum op =>
    obtain ⟨x,hx,rfl⟩ := map_eq_some_iff.mp hl
    exact h.onFd (fun d e ret s _ => ⟨rfl,rfl,fun _ => rfl⟩) hx
  | close fdnum =>
    obtain ⟨x,hx,rfl⟩ := map_eq_some_iff.mp hl
    obtain ⟨y,hy,hcounts,-⟩ := h.fdnumClose fdnum
    rw [hx] at hy
    cases hy
    exact .inl ⟨trivial,hcounts⟩

theorem Counts.empty (hdesc : ∀ d, s.descriptions d=none) (hfds : ∀ i, s.fds thread i=none) :
    s.Counts thread none := by
  refine ⟨?_,?_,?_,?_⟩
  · intro d e he
    rw [hdesc] at he
    cases he
  · intro i _ fd hfd
    rw [hfds] at hfd
    cases hfd
  · intro d hd
    rw [hdesc] at hd
    cases hd
  · intro d hd
    cases hd

theorem Stepped.counted_iff {kept : Prop} (h : Stepped thread kept s') :
    (∀ d e, s'.descriptions d=some e → e.refcount=slotsOf (s'.fds thread) d) ↔ kept := by
  rcases h with ⟨hkept,hcounts⟩ | ⟨hkept,d,hcounts⟩
  · exact iff_of_true (fun d e he => hcounts.counted d e he) hkept
  · refine iff_of_false (fun hall => ?_) hkept
    obtain ⟨e,he⟩ := isSome_iff_exists.mp (hcounts.held d rfl)
    have h1 := hcounts.counted d e he
    rw [if_pos rfl] at h1
    have h2 := hall d e he
    omega

end Files

def tableRuns (thread : Nat) : System Files TableCall :=
  (System.ofPartial (tableCall thread)).restrict (TableCall.Kept thread)

/-- In such a run every count is the number of slots, and the close of the last slot of a
description frees it; the next call leaves the counts right exactly when it is kept too. -/
theorem refcounts_count_slots (thread : Nat) (s₀ s : Files) (hdesc : ∀ d, s₀.descriptions d=none)
    (hfds : ∀ i, s₀.fds thread i=none) (hr : (tableRuns thread).Reachable s₀ s) :
    (∀ d e, s.descriptions d=some e → e.refcount=slotsOf (s.fds thread) d) ∧
    (∀ i fd, i < maxFds → s.fds thread i=some fd → (s.descriptions fd.description).isSome ∧
      ∃ s', fdnumClose s thread i=some (true,s') ∧
        (s'.descriptions fd.description=none ↔ slotsOf (s.fds thread) fd.description=1)) ∧
    (∀ l s', tableCall thread s l=some s' →
      ((∀ d e, s'.descriptions d=some e → e.refcount=slotsOf (s'.fds thread) d) ↔
        l.Kept thread s)) := by
  have hs : s.Counts thread none := by
    refine hr.invariant (I := fun s => s.Counts thread none) (Files.Counts.empty hdesc hfds) ?_
    rintro s l t hs ⟨hkept,hstep⟩
    exact (hs.tableCall hstep).elim And.right (fun h => absurd hkept h.1)
  refine ⟨fun d e he => hs.counted d e he,?_,fun l s' hl => (hs.tableCall hl).counted_iff⟩
  intro i fd hi hfd
  have hlive := hs.live i hi fd hfd
  obtain ⟨e,he⟩ := isSome_iff_exists.mp hlive
  have hclose : fdnumClose s thread i=
      some (true,(s.release fd.description e).clearFd thread i) := by
    rw [fdnumClose,if_neg (by omega),Int.toNat_natCast,hfd]
    dsimp only
    rw [he]
    rfl
  refine ⟨hlive,_,hclose,?_⟩
  · have hc := hs.counted _ e he
    rw [if_neg (by rintro ⟨⟩),Nat.add_zero] at hc
    show ((s.release fd.description e).descriptions fd.description)=none ↔ _
    rw [Files.descriptions_release,if_pos rfl,← hc]
    split
    · exact iff_of_true rfl ‹_›
    · exact iff_of_false (by rintro ⟨⟩) ‹_›

/-- Two opens, of which the second takes the slot of the first. -/
theorem refcounts_count_slots_reopened : ∃ s, (tableRuns 0).Reachable (Files.fresh 0o100644) s ∧
    (s.fds 0 0).map Descriptor.description=some 1 ∧ (s.descriptions 0).isNone ∧
    ∀ d e, s.descriptions d=some e → e.refcount=slotsOf (s.fds 0) d := by
  have hrun : (System.exec (fun s l => if TableCall.Kept 0 s l then tableCall 0 s l else none)
      (Files.fresh 0o100644) [.openFile 0 0 false,.openFile 0 0 true]).map (fun s =>
        ((s.fds 0 0).map Descriptor.description,(s.descriptions 0).isNone))=some (some 1,true) := by
    decide +kernel
  obtain ⟨s,hs,hend⟩ := map_eq_some_iff.mp hrun
  obtain ⟨hslot,hfreed⟩ := Prod.mk.inj hend
  have hr := System.reachable_exec_restrict (tableCall 0) (TableCall.Kept 0) _ _ _ hs
  exact ⟨s,hr,hslot,hfreed,(refcounts_count_slots 0 _ s (fun _ => rfl) (fun _ => rfl) hr).1⟩

/-- An open, a read and a close of the same number: the description is never freed. -/
theorem refcount_leaks : ∃ s, System.exec (tableCall 0) (Files.fresh 0o100644)
      [.openFile 0 0 false,.read 0 (fun rs _ => some (0,rs)),.close 0]=some s ∧
    (s.descriptions 0).map Description.refcount=some 1 ∧ slotsOf (s.fds 0) 0=0 := by
  have hrun : (System.exec (tableCall 0) (Files.fresh 0o100644)
      [.openFile 0 0 false,.read 0 (fun rs _ => some (0,rs)),.close 0]).map (fun s =>
        ((s.descriptions 0).map Description.refcount,slotsOf (s.fds 0) 0))=some (some 1,0) := by
    decide +kernel
  obtain ⟨s,hs,hend⟩ := map_eq_some_iff.mp hrun
  exact ⟨s,hs,Prod.mk.inj hend⟩

end X64OS.Fs
