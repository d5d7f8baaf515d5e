import X64OS.Fs.TmpfsTruncate
import X64OS.Memory.Ram

namespace X64OS.Fs

open Framework Function
open Option (bind_some map_some)

def maxFds : Nat := 256

structure Description where
  refcount : Nat
  offset : Nat
  res : Nat

structure Descriptor where
  description : Nat

/-- Files and the descriptors of each thread; objects go by number. -/
structure Files where
  resources : Nat → Option Resource
  descriptions : Nat → Option Description
  fds : Nat → Nat → Option Descriptor
  nextDescription : Nat

section
variable (s : Files)

def Files.setResource (i : Nat) (r : Resource) : Files :=
  { s with resources := update s.resources i (some r) }

def Files.setDescription (i : Nat) (d : Description) : Files :=
  { s with descriptions := update s.descriptions i (some d) }

@[simp] theorem Files.setDescription_descriptions (i j : Nat) (d : Description) :
    (s.setDescription i d).descriptions j=if j=i then some d else s.descriptions j :=
  update_apply _ _ _ _

@[simp] theorem Files.setResource_resources (i j : Nat) (r : Resource) :
    (s.setResource i r).resources j=if j=i then some r else s.resources j :=
  update_apply _ _ _ _

/-- A new description starts at offset 0. -/
def fdCreateFromResource (res : Nat) : Descriptor × Files :=
  (⟨s.nextDescription⟩,
    { s.setDescription s.nextDescription ⟨1,0,res⟩ with nextDescription := s.nextDescription+1 })

/-- fdnum_create_from_fd without specific: the first free number from old_fdnum on. -/
def fdnumCreateFromFd (thread : Nat) (fd : Descriptor) (oldFdnum : Int) : Int × Files :=
  if oldFdnum < 0 ∨ maxFds ≤ oldFdnum then (-1,s)
  else
    match (List.range' oldFdnum.toNat (maxFds-oldFdnum.toNat)).find?
        (fun i => (s.fds thread i).isNone) with
    | none => (-1,s)
    | some i =>
      (i,{ s with fds := update s.fds thread (update (s.fds thread) i (some fd)) })

/-- fd_from_fdnum: the descriptor, with one more reference to its description. -/
def fdFromFdnum (thread : Nat) (fdnum : Int) : Option (Option Descriptor × Files) :=
  if fdnum < 0 ∨ maxFds ≤ fdnum then some (none,s)
  else
    match s.fds thread fdnum.toNat with
    | none => some (none,s)
    | some fd => (s.descriptions fd.description).map (fun d =>
      (some fd,s.setDescription fd.description { d with refcount := add64 d.refcount 1 }))

end

def syscallWrite (room : Nat → Bool) (s : Files) (thread : Nat) (fdnum : Int) (buf : Str) :
    Option (Int × Files) :=
  (fdFromFdnum s thread fdnum).bind (fun x =>
    match x.1 with
    | none => some (-1,x.2)
    | some fd =>
      (x.2.descriptions fd.description).bind (fun d =>
        (x.2.resources d.res).bind (fun r =>
          (tmpfsResourceWrite room r buf d.offset).map (fun y =>
            let s := x.2.setResource d.res y.2
            if y.1 < 0 then (-1,s)
            else (y.1,s.setDescription fd.description
              { d with offset := add64 d.offset y.1.toNat })))))

def syscallRead (s : Files) (thread : Nat) (fdnum : Int) (count : Nat) :
    Option ((Int × Str) × Files) :=
  (fdFromFdnum s thread fdnum).bind (fun x =>
    match x.1 with
    | none => some ((-1,[]),x.2)
    | some fd =>
      (x.2.descriptions fd.description).bind (fun d =>
        (x.2.resources d.res).bind (fun r =>
          (tmpfsResourceRead r d.offset count).map (fun y =>
            ((y.1,y.2),x.2.setDescription fd.description
              { d with offset := add64 d.offset y.1 })))))

inductive FileCall where
  | openFile (thread : Nat)
  | read (thread : Nat) (fdnum : Int) (count : Nat)
  | write (thread : Nat) (fdnum : Int) (buf : Str)

/-- The answer is the return value and the bytes a read delivers. -/
def fileCall (room : Nat → Bool) (s : Files) : FileCall → Option ((Int × Str) × Files)
  | .openFile thread =>
    let x := fdCreateFromResource s 0
    let y := fdnumCreateFromFd x.2 thread x.1 0
    some ((y.1,[]),y.2)
  | .read thread fdnum count => syscallRead s thread fdnum count
  | .write thread fdnum buf => (syscallWrite room s thread fdnum buf).map (fun x => ((x.1,[]),x.2))

def Files.fresh (mode : Nat) : Files where
  resources i := if i=0 then some (createTmpfsResource mode) else none
  descriptions _ := none
  fds _ _ := none
  nextDescription := 0

/-- The reference: one sequence of bytes and an offset for each description. -/
structure RefFile where
  size : Nat
  bytes : Nat → BitVec 8
  fds : Nat → Nat → Option Nat
  offset : Nat → Nat
  next : Nat

def RefFile.empty : RefFile := ⟨0,fun _ => 0,fun _ _ => none,fun _ => 0,0⟩

section
variable (f : RefFile)

def RefFile.description (thread : Nat) (fdnum : Int) : Option Nat :=
  if fdnum < 0 ∨ maxFds ≤ fdnum then none else f.fds thread fdnum.toNat

def RefFile.openFile (thread : Nat) : Int × RefFile :=
  let f' := { f with offset := update f.offset f.next 0, next := f.next+1 }
  match (List.range maxFds).find? (fun i => (f.fds thread i).isNone) with
  | none => (-1,f')
  | some i =>
    (i,{ f' with fds := update f.fds thread (update (f.fds thread) i (some f.next)) })

def RefFile.advance (d n : Nat) : RefFile :=
  { f with offset := update f.offset d (f.offset d+n) }

@[simp] theorem RefFile.advance_offset (d n d' : Nat) :
    (f.advance d n).offset d'=if d'=d then f.offset d+n else f.offset d' :=
  update_apply _ _ _ _

/-- What a read at an offset delivers: the bytes from there, up to the end of the file. -/
def RefFile.readAt (offset count : Nat) : Str :=
  window f.bytes offset (min count (f.size-offset))

def RefFile.writeAt (offset : Nat) (buf : Str) : RefFile :=
  { f with size := max f.size (offset+buf.length), bytes := overlay f.bytes offset buf }

end

/-- The buffer of a file that was never truncated: a page, or the next power of two above its size. -/
def bufferSize (size : Nat) : Nat := 2^(max 12 (Nat.log2 size+1))

/-- The answers of the reference file. A write fails, and changes nothing, if the file needs a larger
buffer for it and there is no memory for that. -/
def RefFile.Step (room : Nat → Bool) (f : RefFile) : FileCall → Int × Str → RefFile → Prop
  | .openFile thread,o,f' => o=((f.openFile thread).1,[]) ∧ f'=(f.openFile thread).2
  | .read thread fdnum count,o,f' =>
    match f.description thread fdnum with
    | none => o=(-1,[]) ∧ f'=f
    | some d =>
      let bytes := f.readAt (f.offset d) count
      o=((bytes.length : Int),bytes) ∧ f'=f.advance d bytes.length
  | .write thread fdnum buf,o,f' =>
    match f.description thread fdnum with
    | none => o=(-1,[]) ∧ f'=f
    | some d =>
      let stop := f.offset d+buf.length
      if bufferSize f.size ≤ stop ∧ room (bufferSize stop)=false then o=(-1,[]) ∧ f'=f
      else o=((buf.length : Int),[]) ∧ f'=(f.writeAt (f.offset d) buf).advance d buf.length

theorem bufferSize_same {n m : Nat} (hle : n ≤ m) (hlt : m < bufferSize n) :
    bufferSize m=bufferSize n := by
  have hlow : Nat.log2 n < max 12 (Nat.log2 m+1) := by
    by_cases hn : n=0
    · rw [hn,Nat.log2_zero]
      omega
    · rw [Nat.log2_lt hn]
      calc n ≤ m := hle
        _ < 2^(Nat.log2 m+1) := Nat.lt_log2_self
        _ ≤ 2^(max 12 (Nat.log2 m+1)) := Nat.pow_le_pow_right (by omega) (by omega)
  have hhigh : Nat.log2 m < max 12 (Nat.log2 n+1) := by
    by_cases hm : m=0
    · rw [hm,Nat.log2_zero]
      omega
    · exact (Nat.log2_lt hm).mpr hlt
  rw [bufferSize,bufferSize]
  exact congrArg (fun k => 2^k) (by omega)

/-- What the loop that doubles the capacity ends with. -/
theorem growCapacity_bufferSize {size stop c : Nat} (hle : bufferSize size ≤ stop)
    (hstop : stop < 2^63) (h : growCapacity stop 65 (bufferSize size)=some c) : c=bufferSize stop := by
  have ha : max 12 (Nat.log2 size+1) ≤ 63 := by
    by_contra hlt
    have hpow : 2^64 ≤ bufferSize size := Nat.pow_le_pow_right (by omega) (by omega)
    omega
  obtain ⟨b,hab,-,rfl⟩ := growCapacity_pow ha h
  have hlt := growCapacity_lt h
  have hpos : 0 < bufferSize size := Nat.two_pow_pos _
  obtain ⟨c',hc',-,-,hor⟩ := growCapacity_spec (n:=64) hpos (Nat.lt_of_le_of_lt hle hstop) hstop
    (by omega)
  cases h.symm.trans hc'
  obtain ⟨k,rfl⟩ : ∃ k, b=k+1 := ⟨b-1,by omega⟩
  have hlog : Nat.log2 stop=k := by
    rw [Nat.log2_eq_iff (by omega)]
    rw [Nat.pow_succ] at hor hlt ⊢
    omega
  rw [bufferSize,hlog]
  exact congrArg (fun k => 2^k) (by omega)

def FileCall.count : FileCall → Nat
  | .openFile _ => 0
  | .read _ _ count => count
  | .write _ _ buf => buf.length

/-- The file is in the state of the reference, and no description is past its end. -/
structure Files.Shows (s : Files) (f : RefFile) : Prop where
  next : s.nextDescription=f.next
  file : ∃ r ws, s.resources 0=some r ∧ r.Holds ws ∧ r.capacity ≤ 2^62 ∧
    r.capacity=bufferSize f.size ∧ f.size=refSize ws ∧ f.bytes=refByte ws
  fds : ∀ thread i, f.fds thread i=(s.fds thread i).map (fun fd => fd.description)
  live : ∀ thread i fd, s.fds thread i=some fd → ∃ e, s.descriptions fd.description=some e
  offset : ∀ d e, s.descriptions d=some e → d < f.next ∧ e.res=0 ∧ e.offset=f.offset d ∧
    f.offset d ≤ f.size

variable {s : Files} {f : RefFile} {thread d n : Nat} {e : Description}

theorem Files.Shows.fresh {mode : Nat} (h : sIsreg mode=true) : (Files.fresh mode).Shows .empty := by
  refine ⟨rfl,⟨_,[],rfl,createTmpfsResource_holds h,?_,?_,rfl,rfl⟩,fun _ _ => rfl,?_,?_⟩
  · rw [createTmpfsResource,if_pos h]
    show 4096 ≤ 2^62
    decide
  · rw [createTmpfsResource,if_pos h]
    show 4096=bufferSize 0
    decide
  · intro _ _ _ h
    cases h
  · intro _ _ h
    cases h

section
variable (h : s.Shows f)
include h

/-- A description may get another offset inside the file. -/
theorem Files.Shows.setDescription (hd : s.descriptions d=some e) (refcount : Nat)
    (hn : f.offset d+n ≤ f.size) :
    (s.setDescription d ⟨refcount,f.offset d+n,e.res⟩).Shows (f.advance d n) := by
  obtain ⟨hlt,hres,hoff,hle⟩ := h.offset d e hd
  refine ⟨h.next,h.file,h.fds,?_,?_⟩
  · intro thread i fd hfd
    rw [Files.setDescription_descriptions]
    by_cases heq : fd.description=d
    · exact ⟨_,if_pos heq⟩
    · rw [if_neg heq]
      exact h.live thread i fd hfd
  · intro d' e' he'
    rw [Files.setDescription_descriptions] at he'
    rw [RefFile.advance_offset]
    by_cases heq : d'=d
    · rw [if_pos heq] at he' ⊢
      cases he'
      exact ⟨heq ▸ hlt,hres,rfl,hn⟩
    · rw [if_neg heq] at he' ⊢
      exact h.offset d' e' he'

theorem Files.Shows.setResource {r' : Resource} {ws : List Write} {w : Write}
    (hsize : f.size=refSize ws) (hbytes : f.bytes=refByte ws) (hholds : r'.Holds (ws++[w]))
    (hcap : r'.capacity ≤ 2^62)
    (hbuffer : r'.capacity=bufferSize (max f.size (w.offset+w.bytes.length))) :
    (s.setResource 0 r').Shows (f.writeAt w.offset w.bytes) := by
  refine ⟨h.next,⟨r',ws++[w],?_,hholds,hcap,hbuffer,?_,?_⟩,h.fds,h.live,?_⟩
  · rw [Files.setResource_resources,if_pos rfl]
  · rw [refSize_append,← hsize]
    rfl
  · funext i
    rw [refByte_append,← hbytes]
    rfl
  · intro d e he
    obtain ⟨hlt,hres,hoff,hle⟩ := h.offset d e he
    exact ⟨hlt,hres,hoff,Nat.le_trans hle (Nat.le_max_left _ _)⟩

theorem Files.Shows.fdFromFdnum (thread : Nat) (fdnum : Int) :
    (f.description thread fdnum=none ∧ fdFromFdnum s thread fdnum=some (none,s)) ∨
    ∃ fd e s', f.description thread fdnum=some fd.description ∧
      fdFromFdnum s thread fdnum=some (some fd,s') ∧ s'.Shows f ∧
      s'.descriptions fd.description=some e := by
  rw [RefFile.description,Fs.fdFromFdnum]
  by_cases hbad : fdnum < 0 ∨ maxFds ≤ fdnum
  · rw [if_pos hbad,if_pos hbad]
    exact .inl ⟨rfl,rfl⟩
  · rw [if_neg hbad,if_neg hbad,h.fds]
    cases hfd : s.fds thread fdnum.toNat with
    | none => exact .inl ⟨rfl,rfl⟩
    | some fd =>
      obtain ⟨e,he⟩ := h.live _ _ _ hfd
      obtain ⟨-,-,hoff,hle⟩ := h.offset _ e he
      have hs' := h.setDescription he (add64 e.refcount 1) (n := 0) (by omega)
      have hadv : f.advance fd.description 0=f := by
        rw [RefFile.advance,Nat.add_zero,update_eq_self]
      rw [hadv,Nat.add_zero,← hoff] at hs'
      dsimp only
      rw [he]
      exact .inr ⟨fd,_,_,rfl,rfl,hs',by rw [Files.setDescription_descriptions,if_pos rfl]⟩

theorem Files.Shows.read (thread : Nat) (fdnum : Int) {count : Nat} (hc : count < 2^62)
    (room : Nat → Bool) :
    ∃ o s' f', syscallRead s thread fdnum count=some (o,s') ∧
      f.Step room (.read thread fdnum count) o f' ∧ s'.Shows f' := by
  rcases h.fdFromFdnum thread fdnum with ⟨hnone,hfd⟩ | ⟨fd,e,s',hsome,hfd,hs',he⟩
  · refine ⟨(-1,[]),s,f,?_,?_,h⟩
    · rw [syscallRead,hfd]
      rfl
    · rw [RefFile.Step,hnone]
      exact ⟨rfl,rfl⟩
  · obtain ⟨r,ws,hr,hholds,hcap,hbuffer,hsize,hbytes⟩ := hs'.file
    obtain ⟨-,hres,hoff,hle⟩ := hs'.offset _ e he
    have hroom := hholds.room
    have hstat := hholds.size
    have hread := hholds.read (show e.offset ≤ r.stSize by omega) (show e.offset+count < 2^63 by omega)
    have hbytes' : f.readAt (f.offset fd.description) count=
        window (refByte ws) e.offset (min count (r.stSize-e.offset)) := by
      rw [RefFile.readAt,hbytes,hoff,hsize,hstat]
    generalize hn : min count (r.stSize-e.offset)=n at hread hbytes'
    refine ⟨((n : Int),window (refByte ws) e.offset n),_,f.advance fd.description n,?_,?_,
      hs'.setDescription he e.refcount (by omega)⟩
    · rw [syscallRead,hfd,bind_some]
      dsimp only
      rw [he,bind_some,hres,hr,bind_some,hread,map_some,add64_eq (by omega),hoff]
    · rw [RefFile.Step,hsome]
      dsimp only
      rw [hbytes',length_window]
      exact ⟨rfl,rfl⟩

theorem Files.Shows.write (thread : Nat) (fdnum : Int) {buf : Str} (hc : buf.length < 2^62)
    {room : Nat → Bool} (hroom : ∀ n, room n=true → n ≤ 2^62) :
    ∃ o s' f', (syscallWrite room s thread fdnum buf).map (fun x => ((x.1,([] : Str)),x.2))=some (o,s') ∧
      f.Step room (.write thread fdnum buf) o f' ∧ s'.Shows f' := by
  rcases h.fdFromFdnum thread fdnum with ⟨hnone,hfd⟩ | ⟨fd,e,s',hsome,hfd,hs',he⟩
  · refine ⟨(-1,[]),s,f,?_,?_,h⟩
    · rw [syscallWrite,hfd]
      rfl
    · rw [RefFile.Step,hnone]
      exact ⟨rfl,rfl⟩
  · obtain ⟨r,ws,hr,hholds,hcap,hbuffer,hsize,hbytes⟩ := hs'.file
    obtain ⟨-,hres,hoff,hle⟩ := hs'.offset _ e he
    have hlt := hholds.room
    have hw : syscallWrite room s thread fdnum buf=(tmpfsResourceWrite room r buf e.offset).map (fun y =>
        if y.1 < 0 then (-1,s'.setResource 0 y.2)
        else (y.1,(s'.setResource 0 y.2).setDescription fd.description
          { e with offset := add64 e.offset y.1.toNat })) := by
      rw [syscallWrite,hfd,bind_some]
      dsimp only
      rw [he,bind_some,hres,hr,bind_some]
    rw [hw]
    rcases hholds.write ⟨e.offset,buf⟩ (show e.offset+buf.length < 2^63 by omega)
      (fun n _ hn => Nat.lt_of_le_of_lt (hroom n hn) (by decide)) with
      ⟨r',hr',hholds',hcap'⟩ | ⟨hfail,hfull,c,hc,hno⟩
    · have hgrown : r'.capacity ≤ 2^62 ∧ r'.capacity=bufferSize (max f.size (e.offset+buf.length)) ∧
          ¬(bufferSize f.size ≤ e.offset+buf.length ∧
            room (bufferSize (e.offset+buf.length))=false) := by
        rcases hcap' with ⟨hfits,heq⟩ | ⟨hfull,hfound,hc⟩
        · dsimp only at hfits
          rw [heq,bufferSize_same (Nat.le_max_left f.size _) (by omega)]
          exact ⟨hcap,hbuffer,fun h => absurd h.1 (by omega)⟩
        · dsimp only at hfull hc
          rw [hbuffer] at hc
          have heq := growCapacity_bufferSize (by omega) (by omega) hc
          rw [Nat.max_eq_right (by omega),← heq,hfound]
          exact ⟨hroom _ hfound,rfl,fun h => Bool.noConfusion h.2⟩
      have hs₁ := hs'.setResource hsize hbytes hholds' hgrown.1 hgrown.2.1
      refine ⟨((buf.length : Int),[]),_,(f.writeAt e.offset buf).advance fd.description buf.length,?_,?_,
        hs₁.setDescription he e.refcount ?_⟩
      · have hdone : tmpfsResourceWrite room r buf e.offset=some ((buf.length : Int),r') := hr'
        rw [hdone,map_some,map_some,if_neg (by omega),Int.toNat_natCast,
          add64_eq (by omega),hoff]
        rfl
      · rw [RefFile.Step,hsome]
        dsimp only
        rw [← hoff,if_neg hgrown.2.2]
        exact ⟨rfl,rfl⟩
      · show f.offset fd.description+buf.length ≤ max f.size (e.offset+buf.length)
        rw [hoff]
        exact Nat.le_max_right _ _
    · have hsame : s'.setResource 0 r=s' := by
        rw [Files.setResource,← hr,update_eq_self]
      dsimp only at hfull hc
      rw [hbuffer] at hfull hc
      rw [growCapacity_bufferSize hfull (by omega) hc] at hno
      refine ⟨(-1,[]),s',f,?_,?_,hs'⟩
      · rw [hfail,map_some,map_some,if_pos (show (-1 : Int) < 0 by decide),hsame]
      · rw [RefFile.Step,hsome]
        dsimp only
        rw [← hoff,if_pos ⟨hfull,hno⟩]
        exact ⟨rfl,rfl⟩

theorem Files.Shows.fdCreate : (fdCreateFromResource s 0).2.Shows
    { f with offset := update f.offset f.next 0, next := f.next+1 } := by
  refine ⟨congrArg (fun n => n+1) h.next,h.file,h.fds,?_,?_⟩
  · intro thread i fd hfd
    obtain ⟨e,he⟩ := h.live thread i fd hfd
    have hlt := (h.offset _ e he).1
    refine ⟨e,?_⟩
    show (s.setDescription s.nextDescription ⟨1,0,0⟩).descriptions fd.description=some e
    rw [Files.setDescription_descriptions,if_neg (by rw [h.next]; omega)]
    exact he
  · intro d e he
    have he' : (s.setDescription s.nextDescription ⟨1,0,0⟩).descriptions d=some e := he
    rw [Files.setDescription_descriptions,h.next] at he'
    by_cases hd : d=f.next
    · rw [if_pos hd] at he'
      cases he'
      rw [hd]
      refine ⟨Nat.lt_succ_self _,rfl,?_⟩
      dsimp only
      rw [update_self]
      exact ⟨rfl,Nat.zero_le _⟩
    · rw [if_neg hd] at he'
      obtain ⟨hlt,hres,hoff,hle⟩ := h.offset d e he'
      dsimp only
      rw [update_of_ne hd]
      exact ⟨Nat.lt_succ_of_lt hlt,hres,hoff,hle⟩

theorem Files.Shows.install (thread i : Nat) {d : Nat} {e : Description}
    (hd : s.descriptions d=some e) :
    Files.Shows { s with
        fds := update s.fds thread (update (s.fds thread) i (some ⟨d⟩)) }
      { f with fds := update f.fds thread (update (f.fds thread) i (some d)) } := by
  refine ⟨h.next,h.file,?_,?_,h.offset⟩
  · intro thread' j
    by_cases ht : thread'=thread <;> by_cases hj : j=i <;> simp [ht,hj,h.fds]
  · intro thread' j fd hfd
    by_cases hc : thread'=thread ∧ j=i
    · obtain ⟨rfl,rfl⟩ := hc
      dsimp only at hfd
      rw [update_self,update_self] at hfd
      cases hfd
      exact ⟨e,hd⟩
    · have hold : s.fds thread' j=some fd := by
        by_cases ht : thread'=thread <;> by_cases hj : j=i <;> simp_all
      exact h.live thread' j fd hold

theorem Files.Shows.openFile (room : Nat → Bool) (thread : Nat) :
    ∃ o s' f', fileCall room s (.openFile thread)=some (o,s') ∧
      f.Step room (.openFile thread) o f' ∧ s'.Shows f' := by
  have hfind : (List.range' 0 maxFds).find? (fun i => (s.fds thread i).isNone)=
      (List.range maxFds).find? (fun i => (f.fds thread i).isNone) := by
    rw [List.range_eq_range']
    simp only [h.fds,Option.isNone_map]
  have hcreate : fdnumCreateFromFd (fdCreateFromResource s 0).2 thread (fdCreateFromResource s 0).1 0=
      match (List.range' 0 maxFds).find? (fun i => (s.fds thread i).isNone) with
      | none => (-1,(fdCreateFromResource s 0).2)
      | some i => (i,{ (fdCreateFromResource s 0).2 with
          fds := update s.fds thread
            (update (s.fds thread) i (some (fdCreateFromResource s 0).1)) }) := by
    rw [fdnumCreateFromFd,if_neg (by decide)]
    rfl
  refine ⟨_,_,(f.openFile thread).2,rfl,⟨?_,rfl⟩,?_⟩
  · rw [hcreate,hfind,RefFile.openFile]
    cases (List.range maxFds).find? (fun i => (f.fds thread i).isNone) <;> rfl
  · rw [hcreate,hfind,RefFile.openFile]
    cases (List.range maxFds).find? (fun i => (f.fds thread i).isNone) with
    | none => exact h.fdCreate
    | some i =>
      have hnew : (fdCreateFromResource s 0).2.descriptions f.next=some ⟨1,0,0⟩ := by
        show (s.setDescription s.nextDescription ⟨1,0,0⟩).descriptions f.next=_
        rw [Files.setDescription_descriptions,if_pos h.next.symm]
      rw [show (fdCreateFromResource s 0).1=⟨f.next⟩ from congrArg Descriptor.mk h.next]
      exact h.fdCreate.install thread i hnew

end

end X64OS.Fs
