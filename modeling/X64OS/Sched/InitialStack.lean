import X64OS.Framework.WordStack
import X64OS.Fs.Initrd
import X64OS.Prg.Elf
import X64OS.Sched.Sched

namespace X64OS.Sched

open Framework
open Fs (Str StrAt strAt_iff cString str)
open Prg (Auxval)

def stackSize : Nat := 128*1024

def At.phdr : BitVec 64 := 3

def At.phent : BitVec 64 := 4

def At.phnum : BitVec 64 := 5

def At.entry : BitVec 64 := 9

def At.secure : BitVec 64 := 23

def pushString (bytes : Str → Str) (u : WordStack) (s : Str) : WordStack :=
  let stack := sub64 (sub64 u.stack s.length) 1
  ⟨overlay u.mem stack (bytes s),stack⟩

def pushStrings (bytes : Str → Str) (u : WordStack) (ss : List Str) : WordStack :=
  ss.foldl (pushString bytes) u

def pushEnvp (u : WordStack) (envp : List Str) : WordStack := pushStrings (fun s => s++[0]) u envp

/-- The copy leaves out the zero of the string. -/
def pushArgv (u : WordStack) (argv : List Str) : WordStack := pushStrings (fun s => s) u argv

/-- The second loop over the strings, which computes where the first one put them. -/
def pointerLoop : Mem → Nat → Nat → List Str → Mem × Nat
  | mem,_,oldRsp,[] => (mem,oldRsp)
  | mem,stack,oldRsp,s::ss =>
    let oldRsp := sub64 oldRsp (s.length+1)
    pointerLoop (mem.write64 stack (BitVec.ofNat 64 oldRsp)) (stack+8) oldRsp ss

def pushPointers (u : WordStack) (oldRsp : Nat) (ss : List Str) : WordStack × Nat :=
  let stack := sub64 u.stack (8*ss.length)
  let x := pointerLoop u.mem stack oldRsp ss
  (⟨x.1,stack⟩,x.2)

def pushAuxv (u : WordStack) (aux : Auxval) : WordStack :=
  let u := (u.extend [0]).extend [0]
  let u := u.extend [At.secure,0]
  let u := u.extend [At.entry,BitVec.ofNat 64 aux.atEntry]
  let u := u.extend [At.phdr,BitVec.ofNat 64 aux.atPhdr]
  let u := u.extend [At.phent,BitVec.ofNat 64 aux.atPhent]
  u.extend [At.phnum,BitVec.ofNat 64 aux.atPhnum]

def wordsStart (stack words : Nat) : Nat :=
  let stack := Memory.alignDown stack 16
  if (words+1)%2≠0 then sub64 stack 8 else stack

def pushVectors (u : WordStack) (oldRsp : Nat) (argv envp : List Str) (aux : Auxval) : WordStack :=
  let u := pushAuxv u aux
  let x := pushPointers (u.extend [0]) oldRsp envp
  let x := pushPointers (x.1.extend [0]) x.2 argv
  x.1.extend [BitVec.ofNat 64 argv.length]

/-- The stack that CreateThread sets up in the pages at base; stack is what rsp gets. -/
def setupStack (mem : Mem) (base : Nat) (argv envp : List Str) (aux : Auxval) : WordStack :=
  let top := add64 base stackSize
  let u := pushArgv (pushEnvp ⟨mem.fill base stackSize 0,top⟩ envp) argv
  pushVectors ⟨u.mem,wordsStart u.stack (argv.length+envp.length)⟩ top argv envp aux

section Strings

variable {mem mem' : Mem} {lo hi p : Nat} {s : Str} {ss : List Str}

structure Copied (mem : Mem) (lo hi p : Nat) (s : Str) : Prop where
  string : StrAt mem p s
  low : lo ≤ p
  high : p+s.length < hi

theorem Copied.mono {lo' hi' : Nat} (h : Copied mem lo hi p s)
    (hmem : ∀ x, lo ≤ x → x < hi → mem' x=mem x) (hlo : lo' ≤ lo) (hhi : hi ≤ hi') :
    Copied mem' lo' hi' p s := by
  have hlow := h.low
  have hhigh := h.high
  refine ⟨?_,by omega,by omega⟩
  obtain ⟨hwindow,hzero,hend⟩ := strAt_iff.mp h.string
  refine strAt_iff.mpr ⟨?_,hzero,?_⟩
  · rw [← hwindow,length_window]
    apply window_congr
    intro i hi
    exact hmem _ (by omega) (by omega)
  · rw [hmem _ (by omega) hhigh,hend]

def stringBytes (ss : List Str) : Nat := (ss.map (fun s => s.length+1)).sum

def addresses : Nat → List Str → List Nat
  | _,[] => []
  | rsp,s::ss => (rsp-(s.length+1))::addresses (rsp-(s.length+1)) ss

theorem stringBytes_cons (s : Str) (ss : List Str) :
    stringBytes (s::ss)=s.length+1+stringBytes ss := by
  simp [stringBytes]

@[simp] theorem length_addresses (rsp : Nat) (ss : List Str) :
    (addresses rsp ss).length=ss.length := by
  induction ss generalizing rsp with
  | nil => rfl
  | cons s ss ih => simp [addresses,ih]

theorem pushString_eq (bytes : Str → Str) {u : WordStack} (hstack : u.stack < 2^64)
    (hroom : s.length+1 ≤ u.stack) :
    pushString bytes u s=
      ⟨overlay u.mem (u.stack-(s.length+1)) (bytes s),u.stack-(s.length+1)⟩ := by
  have hlt : u.stack-s.length < 2^64 := Nat.lt_of_le_of_lt (Nat.sub_le _ _) hstack
  have hp : sub64 (sub64 u.stack s.length) 1=u.stack-(s.length+1) := by
    rw [sub64_eq hstack (by omega),sub64_eq hlt (by omega),Nat.sub_sub]
  rw [pushString,hp]

theorem Copied.overlay {bytes : Str} (hbytes : bytes=s ∨ bytes=s++[0]) (hnul : 0∉s)
    (hzero : mem (p+s.length)=0) :
    Copied (overlay mem p bytes) p (p+(s.length+1)) p s := by
  refine ⟨strAt_iff.mpr ⟨?_,hnul,?_⟩,le_rfl,by omega⟩
  · rcases hbytes with rfl | rfl
    · exact window_overlay _ _ _
    · have hall := window_overlay mem p (s++[0])
      rw [List.length_append,window_append] at hall
      exact List.append_inj_left hall (length_window _ _ _)
  · rcases hbytes with rfl | rfl
    · rw [overlay_of_ge le_rfl,hzero]
    · rw [overlay_of_mem (Nat.le_add_right _ _) (by simp)]
      simp

theorem pushStrings_spec (bytes : Str → Str) (hbytes : ∀ s, bytes s=s ∨ bytes s=s++[0])
    {u : WordStack} {low : Nat} (hnul : ∀ s∈ss, 0∉s) (hstack : u.stack < 2^64)
    (hlow : low+stringBytes ss=u.stack) (hzero : ∀ x, low ≤ x → x < u.stack → u.mem x=0) :
    (pushStrings bytes u ss).stack=low ∧
      (∀ x, x < low ∨ u.stack ≤ x → (pushStrings bytes u ss).mem x=u.mem x) ∧
      List.Forall₂ (Copied (pushStrings bytes u ss).mem low u.stack) (addresses u.stack ss) ss := by
  induction ss generalizing u with
  | nil => exact ⟨hlow.symm,fun x _ => rfl,.nil⟩
  | cons s ss ih =>
    rw [stringBytes_cons] at hlow
    obtain ⟨p,hp⟩ : ∃ p, p+(s.length+1)=u.stack := ⟨u.stack-(s.length+1),by omega⟩
    have hsub : u.stack-(s.length+1)=p := by omega
    have hple : p ≤ u.stack := by omega
    have hplt : p < 2^64 := by omega
    have hlow' : low+stringBytes ss=p := by omega
    have hlen : (bytes s).length ≤ s.length+1 := by
      rcases hbytes s with h | h <;> simp [h]
    have hcopy := Copied.overlay (hbytes s) (hnul s List.mem_cons_self)
      (hzero (p+s.length) (by omega) (by omega))
    obtain ⟨hstack',hsame,hrest⟩ := ih (u:=⟨overlay u.mem p (bytes s),p⟩)
      (fun t ht => hnul t (List.mem_cons_of_mem _ ht)) hplt hlow'
      (fun x hx hx' => (overlay_of_lt hx').trans (hzero x hx (Nat.lt_of_lt_of_le hx' hple)))
    have hone := pushString_eq bytes (s:=s) hstack (by omega)
    rw [hsub] at hone
    rw [pushStrings,List.foldl_cons,hone,addresses,hsub]
    refine ⟨hstack',?_,.cons ?_ ?_⟩
    · intro x hx
      refine (hsame x (hx.imp_right hple.trans)).trans ?_
      by_cases hlt : x < p
      · exact overlay_of_lt hlt
      · exact overlay_of_ge (by omega)
    · rw [hp] at hcopy
      exact hcopy.mono (fun x hx _ => hsame x (.inr hx)) (by omega) le_rfl
    · exact hrest.imp (fun q t ht => ht.mono (fun _ _ _ => rfl) le_rfl (by omega))

theorem pointerLoop_eq (mem : Mem) (stack : Nat) {oldRsp : Nat} (hrsp : oldRsp < 2^64)
    (hroom : stringBytes ss ≤ oldRsp) :
    pointerLoop mem stack oldRsp ss=
      (writeWords mem stack ((addresses oldRsp ss).map (BitVec.ofNat 64)),
        oldRsp-stringBytes ss) := by
  induction ss generalizing mem stack oldRsp with
  | nil => rfl
  | cons s ss ih =>
    rw [stringBytes_cons] at hroom ⊢
    rw [pointerLoop,sub64_eq hrsp (by omega),ih _ _ (by omega) (by omega),Nat.sub_sub]
    rfl

theorem pushPointers_eq (u : WordStack) {oldRsp : Nat} (hrsp : oldRsp < 2^64)
    (hroom : stringBytes ss ≤ oldRsp) :
    pushPointers u oldRsp ss=(u.extend ((addresses oldRsp ss).map (BitVec.ofNat 64)),
      oldRsp-stringBytes ss) := by
  rw [pushPointers,pointerLoop_eq _ _ hrsp hroom,WordStack.extend,List.length_map,length_addresses]

end Strings

structure ProcessEntry where
  argv : List Str
  envp : List Str
  auxv : List (BitVec 64 × BitVec 64)

/-- The strings of an array of pointers that ends with a null pointer, and where the array ends. -/
def readVector (mem : Mem) (fuel : Nat) : Nat → Nat → Option (List Str × Nat)
  | 0,_ => none
  | n+1,a =>
    if mem.read64 a=0 then some ([],a+8)
    else (cString mem fuel (mem.read64 a).toNat).bind (fun s =>
      (readVector mem fuel n (a+8)).map (fun x => (s::x.1,x.2)))

/-- The pairs of an auxiliary vector, up to AT_NULL. -/
def readAuxv (mem : Mem) : Nat → Nat → Option (List (BitVec 64 × BitVec 64))
  | 0,_ => none
  | n+1,a =>
    if mem.read64 a=0 then some []
    else (readAuxv mem n (a+16)).map (fun auxv => (mem.read64 a,mem.read64 (a+8))::auxv)

/-- The stack as the System V ABI says a process finds it at its entry, with at most fuel
elements in each vector and bytes in each string. -/
def processEntry (mem : Mem) (fuel rsp : Nat) : Option ProcessEntry :=
  if rsp%16=0 then
    (readVector mem fuel fuel (rsp+8)).bind (fun argv =>
      if mem.read64 rsp=BitVec.ofNat 64 argv.1.length then
        (readVector mem fuel fuel argv.2).bind (fun envp =>
          (readAuxv mem fuel envp.2).map (fun auxv => ⟨argv.1,envp.1,auxv⟩))
      else none)
  else none

def auxvWords (auxv : List (BitVec 64 × BitVec 64)) : List (BitVec 64) :=
  auxv.flatMap (fun x => [x.1,x.2])

def stackWords (args env : List Nat) (auxv : List (BitVec 64 × BitVec 64)) : List (BitVec 64) :=
  BitVec.ofNat 64 args.length::(args.map (BitVec.ofNat 64)++0::(env.map (BitVec.ofNat 64)++
    0::(auxvWords auxv++[0,0])))

/-- A stack between lo and hi with the words of its vectors and, above them, the strings. -/
structure StackAt (mem : Mem) (lo hi rsp : Nat) (entry : ProcessEntry) (args env : List Nat) :
    Prop where
  aligned : rsp%16=0
  low : lo ≤ rsp
  high : rsp+8*(stackWords args env entry.auxv).length ≤ hi
  words : WordsAt mem rsp (stackWords args env entry.auxv)
  argv : List.Forall₂ (Copied mem (rsp+8*(stackWords args env entry.auxv).length) hi)
    args entry.argv
  envp : List.Forall₂ (Copied mem (rsp+8*(stackWords args env entry.auxv).length) hi)
    env entry.envp

section Decoding

variable {mem : Mem} {lo hi rsp a n : Nat} {ps : List Nat} {ss : List Str}

theorem readVector_eq {fuel : Nat} (hfuel : hi-lo ≤ fuel) (hlo : 0 < lo) (hhi : hi ≤ 2^64)
    (hstrings : List.Forall₂ (Copied mem lo hi) ps ss) (hn : ps.length < n)
    (hwords : WordsAt mem a (ps.map (BitVec.ofNat 64))) (hend : mem.read64 (a+8*ps.length)=0) :
    readVector mem fuel n a=some (ss,a+8*(ps.length+1)) := by
  induction hstrings generalizing a n with
  | nil =>
    cases n with
    | zero => cases hn
    | succ n =>
      rw [readVector,if_pos (by simpa using hend)]
      rfl
  | @cons p s ps ss hcopy _ ih =>
    cases n with
    | zero => cases hn
    | succ n =>
      have hlow := hcopy.low
      have hhigh := hcopy.high
      have hp : (BitVec.ofNat 64 p).toNat=p := by
        rw [BitVec.toNat_ofNat]
        exact Nat.mod_eq_of_lt (by omega)
      have hne : mem.read64 a≠0 := by
        rw [hwords.1]
        intro h
        rw [h] at hp
        exact absurd hp (by simp; omega)
      rw [List.length_cons] at hn hend ⊢
      have hrest := ih (Nat.lt_of_succ_lt_succ hn) hwords.2 (by rw [← hend]; congr 1; omega)
      rw [readVector,if_neg hne,hwords.1,hp,hcopy.string.cString (by omega),Option.bind_some,hrest,
        Option.map_some]
      congr 2
      omega

theorem readAuxv_eq {auxv : List (BitVec 64 × BitVec 64)} (hn : auxv.length < n)
    (htags : ∀ x∈auxv, x.1≠0) (hwords : WordsAt mem a (auxvWords auxv++[0,0])) :
    readAuxv mem n a=some auxv := by
  induction auxv generalizing a n with
  | nil =>
    cases n with
    | zero => cases hn
    | succ n => rw [readAuxv,if_pos hwords.1]
  | cons x auxv ih =>
    cases n with
    | zero => cases hn
    | succ n =>
      obtain ⟨htag,hvalue,hrest⟩ := hwords
      rw [readAuxv,if_neg (by rw [htag]; exact htags x List.mem_cons_self),htag,hvalue,
        ih (Nat.lt_of_succ_lt_succ hn) (fun y hy => htags y (List.mem_cons_of_mem _ hy)) hrest]
      rfl

theorem StackAt.processEntry_eq {entry : ProcessEntry} {args env : List Nat}
    (h : StackAt mem lo hi rsp entry args env) (hhi : hi ≤ 2^64) (htags : ∀ x∈entry.auxv, x.1≠0) :
    processEntry mem (hi-lo) rsp=some entry := by
  have hlow := h.low
  have hhigh := h.high
  have hlength : (stackWords args env entry.auxv).length=
      args.length+env.length+2*entry.auxv.length+5 := by
    simp [stackWords,auxvWords]
    omega
  have hwords := h.words
  rw [stackWords,WordsAt,wordsAt_append,WordsAt,wordsAt_append,WordsAt] at hwords
  simp only [List.length_map] at hwords
  obtain ⟨hargc,hargs,hnull,henv,hnull',hauxv⟩ := hwords
  have hfuel : hi-(rsp+8*(stackWords args env entry.auxv).length) ≤ hi-lo := by omega
  have hargv := readVector_eq (n:=hi-lo) hfuel (by omega) hhi h.argv (by omega) hargs hnull
  have henvp := readVector_eq (n:=hi-lo) hfuel (by omega) hhi h.envp (by omega) henv hnull'
  have hvector := readAuxv_eq (n:=hi-lo) (by omega) htags hauxv
  have hplace : ∀ x k : Nat, x+8*(k+1)=x+8*k+8 := by
    intro x k
    omega
  rw [processEntry,if_pos h.aligned,hargv,Option.bind_some,if_pos (by rw [hargc,h.argv.length_eq]),
    hplace,henvp,Option.bind_some,hplace,hvector]
  rfl

end Decoding

section Setup

variable {mem mem₀ : Mem} {base start : Nat} {u : WordStack} {ws : List (BitVec 64)}

def auxVector (aux : Auxval) : List (BitVec 64 × BitVec 64) :=
  [(At.phnum,BitVec.ofNat 64 aux.atPhnum),(At.phent,BitVec.ofNat 64 aux.atPhent),
    (At.phdr,BitVec.ofNat 64 aux.atPhdr),(At.entry,BitVec.ofNat 64 aux.atEntry),(At.secure,0)]

theorem pushAuxv_grown (h : WordStack.Grown mem₀ start u ws) (hstart : start < 2^64)
    (hroom : 8*(ws.length+12) ≤ start) (aux : Auxval) :
    WordStack.Grown mem₀ start (pushAuxv u aux) (auxvWords (auxVector aux)++0::0::ws) := by
  have h1 := h.extend [0] hstart (by simp; omega)
  have h2 := h1.extend [0] hstart (by simp; omega)
  have h3 := h2.extend [At.secure,0] hstart (by simp; omega)
  have h4 := h3.extend [At.entry,BitVec.ofNat 64 aux.atEntry] hstart (by simp; omega)
  have h5 := h4.extend [At.phdr,BitVec.ofNat 64 aux.atPhdr] hstart (by simp; omega)
  have h6 := h5.extend [At.phent,BitVec.ofNat 64 aux.atPhent] hstart (by simp; omega)
  exact h6.extend [At.phnum,BitVec.ofNat 64 aux.atPhnum] hstart (by simp; omega)

def encodedSize (argv envp : List Str) : Nat :=
  (stringBytes envp+stringBytes argv+15)/16*16+(if (argv.length+envp.length)%2=0 then 8 else 0)+
    8*(argv.length+envp.length+15)

theorem wordsStart_eq {stack : Nat} (words : Nat) (hstack : stack < 2^64) (hroom : 16 ≤ stack) :
    wordsStart stack words+(if words%2=0 then 8 else 0)=stack/16*16 := by
  rw [wordsStart,Memory.alignDown]
  by_cases h : words%2=0
  · rw [if_pos h,if_pos (by omega),sub64_eq (by omega) (by omega)]
    omega
  · rw [if_neg h,if_neg (by omega),Nat.add_zero]

theorem wordsStart_room {argv envp : List Str} {low : Nat} (halign : base%16=0)
    (hbound : base+stackSize < 2^64)
    (hlow : low+stringBytes argv+stringBytes envp=base+stackSize)
    (hfits : encodedSize argv envp ≤ stackSize) :
    ∃ rsp, rsp%16=0 ∧ base ≤ rsp ∧
      rsp+8*(argv.length+envp.length+15)=wordsStart low (argv.length+envp.length) ∧
      wordsStart low (argv.length+envp.length) ≤ low := by
  have hsize : stackSize=131072 := rfl
  rw [encodedSize] at hfits
  have hstart := wordsStart_eq (argv.length+envp.length) (show low < 2^64 by omega) (by omega)
  obtain ⟨pad,hpad⟩ : ∃ pad, pad=if (argv.length+envp.length)%2=0 then 8 else 0 := ⟨_,rfl⟩
  have hparity : (pad+8*(argv.length+envp.length+15))%16=0 := by
    rw [hpad]
    split <;> omega
  rw [← hpad] at hfits hstart
  exact ⟨wordsStart low (argv.length+envp.length)-8*(argv.length+envp.length+15),by omega,by omega,
    by omega,by omega⟩

theorem Copied.grown {low top p : Nat} {s : Str} (h : Copied mem₀ low top p s)
    (hgrown : WordStack.Grown mem₀ start u ws) (hle : start ≤ low) :
    Copied u.mem start top p s := by
  have hstack := hgrown.stack
  refine h.mono ?_ hle le_rfl
  intro x hx _
  exact hgrown.same x (by rw [Span.mem_mk]; omega)

theorem strings_copied (mem : Mem) {argv envp : List Str} {low middle top : Nat} (htop : top < 2^64)
    (hargv : ∀ s∈argv, 0∉s) (henvp : ∀ s∈envp, 0∉s) (hmiddle : middle+stringBytes envp=top)
    (hlow : low+stringBytes argv=middle) (hzero : ∀ x, low ≤ x → x < top → mem x=0) :
    (pushArgv (pushEnvp ⟨mem,top⟩ envp) argv).stack=low ∧
      List.Forall₂ (Copied (pushArgv (pushEnvp ⟨mem,top⟩ envp) argv).mem low top)
        (addresses middle argv) argv ∧
      List.Forall₂ (Copied (pushArgv (pushEnvp ⟨mem,top⟩ envp) argv).mem low top)
        (addresses top envp) envp := by
  obtain ⟨hstack,hmem,hcopied⟩ := pushStrings_spec (u:=⟨mem,top⟩) _ (fun s => .inr rfl) henvp
    htop hmiddle (fun x hx hx' => hzero x (by omega) hx')
  change (pushEnvp ⟨mem,top⟩ envp).stack=middle at hstack
  change ∀ x, _ → (pushEnvp ⟨mem,top⟩ envp).mem x=_ at hmem
  change List.Forall₂ (Copied (pushEnvp ⟨mem,top⟩ envp).mem middle top) _ _ at hcopied
  rw [← hstack] at hlow
  obtain ⟨hstack',hmem',hcopied'⟩ := pushStrings_spec (u:=pushEnvp ⟨mem,top⟩ envp)
    (fun s => s) (fun s => .inl rfl) hargv (by omega) hlow (by
      intro x hx hx'
      rw [hmem x (.inl (by omega))]
      exact hzero x hx (by omega))
  rw [hstack] at hcopied'
  refine ⟨hstack',hcopied'.imp ?_,hcopied.imp ?_⟩
  · intro p s h
    exact h.mono (fun _ _ _ => rfl) le_rfl (by omega)
  · intro p s h
    exact h.mono (fun x hx _ => hmem' x (.inr (by omega))) (by omega) le_rfl

theorem pushVectors_grown {argv envp : List Str} (aux : Auxval) {middle top : Nat}
    (htop : top < 2^64) (hmiddle : middle+stringBytes envp=top) (hargv : stringBytes argv ≤ middle)
    (hstart : u.stack < 2^64) (hroom : 8*(argv.length+envp.length+15) ≤ u.stack) :
    WordStack.Grown u.mem u.stack (pushVectors u top argv envp aux)
      (stackWords (addresses middle argv) (addresses top envp) (auxVector aux)) := by
  have haux := pushAuxv_grown (WordStack.Grown.nil u) hstart (by simp; omega) aux
  have hlen : (auxvWords (auxVector aux)).length=10 := rfl
  have hsub : top-stringBytes envp=middle := by omega
  have h1 := haux.extend [0] hstart (by simp [hlen]; omega)
  have h2 := h1.extend ((addresses top envp).map (BitVec.ofNat 64)) hstart (by
    simp [hlen]
    omega)
  have h3 := h2.extend [0] hstart (by simp [hlen]; omega)
  have h4 := h3.extend ((addresses middle argv).map (BitVec.ofNat 64)) hstart (by
    simp [hlen]
    omega)
  have h5 := h4.extend [BitVec.ofNat 64 argv.length] hstart (by simp [hlen]; omega)
  rw [pushVectors,pushPointers_eq _ htop (by omega),hsub,pushPointers_eq _ (by omega) hargv,
    stackWords,length_addresses]
  exact h5

theorem length_stackWords (argv envp : List Str) (aux : Auxval) (middle top : Nat) :
    (stackWords (addresses middle argv) (addresses top envp) (auxVector aux)).length=
      argv.length+envp.length+15 := by
  simp [stackWords,auxvWords,auxVector]
  omega

/-- The stack that is set up has the data it was given. -/
theorem setupStack_stackAt (mem : Mem) {argv envp : List Str} (aux : Auxval) (halign : base%16=0)
    (hbound : base+stackSize < 2^64) (hargv : ∀ s∈argv, 0∉s) (henvp : ∀ s∈envp, 0∉s)
    (hfits : encodedSize argv envp ≤ stackSize) :
    StackAt (setupStack mem base argv envp aux).mem base (base+stackSize)
      (setupStack mem base argv envp aux).stack ⟨argv,envp,auxVector aux⟩
      (addresses (base+stackSize-stringBytes envp) argv) (addresses (base+stackSize) envp) := by
  obtain ⟨top,htop⟩ : ∃ top, top=base+stackSize := ⟨_,rfl⟩
  have hstrings : stringBytes envp+stringBytes argv ≤ stackSize := by
    rw [encodedSize] at hfits
    omega
  obtain ⟨middle,hmiddle⟩ : ∃ middle, middle+stringBytes envp=top :=
    ⟨top-stringBytes envp,by omega⟩
  obtain ⟨low,hlow⟩ : ∃ low, low+stringBytes argv=middle := ⟨middle-stringBytes argv,by omega⟩
  have hsub : top-stringBytes envp=middle := by omega
  have hzero : ∀ x, low ≤ x → x < top → mem.fill base stackSize 0 x=0 := by
    intro x hx hx'
    rw [Mem.fill,if_pos (by rw [Span.mem_mk]; omega)]
  obtain ⟨hstack,hargs,henv⟩ := strings_copied _ (by omega) hargv henvp hmiddle hlow hzero
  obtain ⟨rsp,haligned,hrsp,hstart,hle⟩ := wordsStart_room halign hbound
    (show low+stringBytes argv+stringBytes envp=base+stackSize by omega) hfits
  rw [← hstart] at hle
  have hgrown : WordStack.Grown (pushArgv (pushEnvp ⟨mem.fill base stackSize 0,top⟩ envp) argv).mem
      (rsp+8*(argv.length+envp.length+15)) (setupStack mem base argv envp aux)
      (stackWords (addresses middle argv) (addresses top envp) (auxVector aux)) := by
    rw [setupStack,add64_eq hbound,← htop,hstack,← hstart]
    exact pushVectors_grown (u:=⟨_,rsp+8*(argv.length+envp.length+15)⟩) aux (by omega) hmiddle
      (by omega) (show rsp+_ < 2^64 by omega) (Nat.le_add_left _ _)
  have hlength := length_stackWords argv envp aux middle top
  have hwords := hgrown.stack
  rw [← htop,hsub]
  refine ⟨by omega,by omega,?_,hgrown.words,?_,?_⟩
  · dsimp only
    omega
  · dsimp only
    rw [hwords]
    exact hargs.imp (fun p s h => h.grown hgrown hle)
  · dsimp only
    rw [hwords]
    exact henv.imp (fun p s h => h.grown hgrown hle)

end Setup

theorem auxVector_tags (aux : Auxval) : ∀ x∈auxVector aux, x.1≠0 := by
  intro x hx
  simp only [auxVector,List.mem_cons,List.not_mem_nil,or_false] at hx
  rcases hx with rfl | rfl | rfl | rfl | rfl <;> dsimp only <;> decide

/-- The stack of a new thread is decoded to the arguments, the environment and the auxiliary
values that it was made from, with the strings above the vectors that point to them. -/
theorem initial_stack_decodes {M : Memory.Machine} {P : Type} (A : Memory.PageAllocator M P)
    (p p' : P) (base : Nat) (hp : A.Valid p)
    (halloc : A.alloc p (stackSize/Memory.pageSize)=some (base,p')) (mem : Mem)
    (argv envp : List Str) (aux : Auxval) (hargv : ∀ s∈argv, 0∉s) (henvp : ∀ s∈envp, 0∉s)
    (hfits : encodedSize argv envp ≤ stackSize) (usermode : Bool) (entry : BitVec 64) :
    (Scheduler.initialRegs usermode entry (BitVec.ofNat 64 (base+stackSize))
        (some (BitVec.ofNat 64 (setupStack mem base argv envp aux).stack))).rsp.toNat=
      (setupStack mem base argv envp aux).stack ∧
    (setupStack mem base argv envp aux).stack%16=0 ∧
    processEntry (setupStack mem base argv envp aux).mem stackSize
      (setupStack mem base argv envp aux).stack=some ⟨argv,envp,auxVector aux⟩ ∧
    ∃ args env, StackAt (setupStack mem base argv envp aux).mem base (base+stackSize)
      (setupStack mem base argv envp aux).stack ⟨argv,envp,auxVector aux⟩ args env := by
  have haligned := A.alloc_aligned _ _ _ _ hp (by decide) halloc
  have hpages := A.alloc_bound _ _ _ _ hp (by decide) halloc
  have hphys := M.phys_le
  have hsize : stackSize=131072 := rfl
  have hpage : Memory.pageSize=4096 := rfl
  rw [hpage] at haligned hpages
  rw [hsize] at hpages
  have h := setupStack_stackAt mem aux (show base%16=0 by omega)
    (show base+stackSize < 2^64 by omega) hargv henvp hfits
  have hdecodes := h.processEntry_eq (by omega) (auxVector_tags aux)
  rw [Nat.add_sub_cancel_left] at hdecodes
  have hhigh := h.high
  refine ⟨?_,h.aligned,hdecodes,_,_,h⟩
  show (BitVec.ofNat 64 _).toNat=_
  rw [BitVec.toNat_ofNat]
  exact Nat.mod_eq_of_lt (by omega)

/-- A program without its own arguments, and one environment variable. -/
theorem initial_stack_decodes_init :
    processEntry (setupStack (fun _ => 0) 4096 [str "init"] [str "A=1"] ⟨1,2,3,4⟩).mem stackSize
      (setupStack (fun _ => 0) 4096 [str "init"] [str "A=1"] ⟨1,2,3,4⟩).stack=
      some ⟨[str "init"],[str "A=1"],auxVector ⟨1,2,3,4⟩⟩ :=
  (initial_stack_decodes (Memory.bumpPages Memory.bumpMachine) 1 33 4096 Nat.one_pos rfl
    (fun _ => 0) [str "init"] [str "A=1"] ⟨1,2,3,4⟩ (by decide) (by decide) (by decide)
    true 1).2.2.1

end X64OS.Sched
