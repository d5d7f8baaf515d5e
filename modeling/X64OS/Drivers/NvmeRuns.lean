import X64OS.Drivers.NvmeCache

namespace X64OS.Drivers

open Framework

namespace Drive

variable {ns : Namespace} {dev : Device ns}

structure ReadFrom (dev : Device ns) (loc count progress : Nat) (s : Drive) (bytes : List (BitVec 8))
    (s' : Drive) : Prop where
  failed : s.failed ≤ s'.failed
  coherent : s.Coherent ns → s'.failed=s.failed → s'.Coherent ns ∧ s'.disk=s.disk
  bytes : s.Coherent ns → s'.failed=s.failed → loc+count ≤ ns.size →
    bytes=window s.disk (loc+progress) (count-progress)
  executes : Executes dev → loc+count ≤ ns.size → s'.failed=s.failed

theorem Coherent.window_slot {s : Drive} (hs : s.Coherent ns) {slot addr n : Nat}
    (hslot : slot < 512) (hv : (s.cache slot).status≠0) (hb : (s.cache slot).block=ns.sector addr)
    (hn : n ≤ ns.cacheblocksize-addr%ns.cacheblocksize) (hend : addr+n ≤ ns.size) :
    window (s.cache slot).cache (addr%ns.cacheblocksize) n=window s.disk addr n := by
  have hbytes := hs.holds slot hslot hv
  rw [hb] at hbytes
  have hle := ns.chunk_le hn hend
  have hadd := ns.sector_add addr
  rw [window,window]
  apply List.map_congr_left
  intro k hk
  rw [List.mem_range] at hk
  rw [hbytes _ (by omega)]
  congr 1
  omega

theorem addr_eq {loc count progress : Nat} (hin : loc+count ≤ ns.size) (hlt : progress < count) :
    add64 loc progress=loc+progress := by
  have hsize : ns.size ≤ 2^64 := ns.size_le
  exact add64_eq (by omega)

theorem readLoop_spec (loc : Nat) {count n progress : Nat} (s : Drive) (hp : progress ≤ count)
    (hn : count-progress < n) : ∃ bytes s',
      readLoop ns dev loc count n progress s=some (ssizeT count,bytes,s') ∧
      ReadFrom dev loc count progress s bytes s' := by
  induction n generalizing progress s with
  | zero => cases hn
  | succ n ih =>
    by_cases hlt : progress < count
    · have hsector : ns.sector (add64 loc progress) < 2^61 := ns.sector_lt (Nat.mod_lt _ (by decide))
      obtain ⟨slot,s₁,hslot,-,hle⟩ : ∃ slot s₁,s.slotOf ns dev (ns.sector (add64 loc progress))=
          (some slot,s₁) ∧ _ := s.slotOf_isSome hsector
      have hmod := Nat.mod_lt (add64 loc progress) ns.cacheblocksize_pos
      rw [readLoop_round hlt hslot]
      generalize hchunk : min (count-progress)
        (ns.cacheblocksize-add64 loc progress%ns.cacheblocksize)=chunk
      obtain ⟨bytes,s',hrest,hread⟩ := ih s₁ (by omega : progress+chunk ≤ count) (by omega)
      rw [hrest]
      have hlater := hread.failed
      refine ⟨_,s',rfl,Nat.le_trans hle hlater,?_,?_,?_⟩
      · intro hs hf
        obtain ⟨-,-,-,-,-,hs₁,hdisk⟩ := hs.slotOf hsector hslot (by omega)
        obtain ⟨hs',hdisk'⟩ := hread.coherent hs₁ (by omega)
        exact ⟨hs',hdisk'.trans hdisk⟩
      · intro hs hf hin
        obtain ⟨_,hsame,h512,hblock,hv,hs₁,hdisk⟩ := hs.slotOf hsector hslot (by omega)
        cases hsame
        have haddr := addr_eq hin hlt
        rw [haddr] at hblock hchunk ⊢
        rw [hs₁.window_slot h512 hv hblock (by omega) (by omega),
          hread.bytes hs₁ (by omega) hin,hdisk,← Nat.add_assoc,← window_append]
        congr 1
        omega
      · intro hdev hin
        have haddr := addr_eq hin hlt
        have hfirst := slotOf_executes hdev hsector
          (ns.sector_inside (by rw [haddr]; omega)) hslot
        exact (hread.executes hdev hin).trans hfirst
    · refine ⟨[],s,?_,le_rfl,fun hs _ => ⟨hs,rfl⟩,?_,fun _ _ => rfl⟩
      · rw [readLoop,if_neg hlt]
      · intro _ _ _
        rw [Nat.sub_eq_zero_of_le (by omega)]
        rfl

structure WriteFrom (dev : Device ns) (buf : List (BitVec 8)) (loc progress : Nat) (s s' : Drive) :
    Prop where
  failed : s.failed ≤ s'.failed
  coherent : s.Coherent ns → s'.failed=s.failed → s'.Coherent ns
  disk : s.Coherent ns → s'.failed=s.failed → loc+buf.length ≤ ns.size →
    s'.disk=overlay s.disk (loc+progress) (buf.drop progress)
  executes : s.Coherent ns → Executes dev → loc+buf.length ≤ ns.size → s'.failed=s.failed

theorem writeLoop_spec (buf : List (BitVec 8)) (loc : Nat) {n progress : Nat} (s : Drive)
    (hp : progress ≤ buf.length) (hn : buf.length-progress < n) : ∃ s',
      writeLoop ns dev buf loc n progress s=some (ssizeT buf.length,s') ∧
      WriteFrom dev buf loc progress s s' := by
  induction n generalizing progress s with
  | zero => cases hn
  | succ n ih =>
    by_cases hlt : progress < buf.length
    · have hsector : ns.sector (add64 loc progress) < 2^61 := ns.sector_lt (Nat.mod_lt _ (by decide))
      obtain ⟨slot,s₁,hslot,hblock,hle⟩ : ∃ slot s₁,
          s.slotOf ns dev (ns.sector (add64 loc progress))=(some slot,s₁) ∧ _ :=
        s.slotOf_isSome hsector
      have hmod := Nat.mod_lt (add64 loc progress) ns.cacheblocksize_pos
      rw [writeLoop_round hlt hslot (by rw [hblock]; exact hsector)]
      generalize hchunk : min (buf.length-progress)
        (ns.cacheblocksize-add64 loc progress%ns.cacheblocksize)=chunk
      generalize hpiece : (buf.drop progress).take chunk=piece
      generalize hoff : add64 loc progress%ns.cacheblocksize=off at hchunk hmod ⊢
      have hle₁ : s₁.failed ≤ (s₁.stored ns dev slot off piece).failed := stored_le _ _ _ _
      obtain ⟨s',hrest,hwrite⟩ := ih (s₁.stored ns dev slot off piece)
        (by omega : progress+chunk ≤ buf.length) (by omega)
      have hlater := hwrite.failed
      refine ⟨s',hrest,by omega,?_,?_,?_⟩
      · intro hs hf
        obtain ⟨_,hsame,h512,-,hv,hs₁,-⟩ := hs.slotOf hsector hslot (by omega)
        cases hsame
        exact hwrite.coherent (hs₁.stored h512 hv (by omega)) (by omega)
      · intro hs hf hin
        obtain ⟨_,hsame,h512,-,hv,hs₁,hdisk⟩ := hs.slotOf hsector hslot (by omega)
        cases hsame
        have haddr := addr_eq hin hlt
        have hplen : piece.length=chunk := by
          rw [← hpiece,List.length_take,List.length_drop]
          omega
        have hlen : off+piece.length ≤ ns.blockBytes (s₁.cache slot).block := by
          rw [hblock,← hoff,hplen]
          exact ns.chunk_le (by rw [hoff]; omega) (by rw [haddr]; omega)
        have hwhere : (s₁.cache slot).block*ns.cacheblocksize+off=loc+progress := by
          rw [hblock,← hoff,ns.sector_add,haddr]
        rw [hwrite.disk (hs₁.stored h512 hv (by omega)) (by omega) hin,
          hs₁.stored_disk h512 hv hlen (by omega),hwhere,hdisk,← List.take_append_drop chunk
          (buf.drop progress),hpiece,overlay_append,hplen,List.drop_drop,Nat.add_assoc]
      · intro hs hdev hin
        have haddr := addr_eq hin hlt
        have hlba : 4*ns.sector (add64 loc progress) < ns.lbacount :=
          ns.sector_inside (by rw [haddr]; omega)
        have hfirst := slotOf_executes hdev hsector hlba hslot
        obtain ⟨_,hsame,h512,-,hv,hs₁,-⟩ := hs.slotOf hsector hslot hfirst
        cases hsame
        have hstore : (s₁.stored ns dev slot off piece).failed=s₁.failed := by
          rw [stored,hblock]
          exact nvmeRwlba_executes hdev hsector hlba
        have hlast := hwrite.executes (hs₁.stored h512 hv hstore) hdev hin
        omega
    · refine ⟨s,?_,le_rfl,fun hs _ => hs,?_,fun _ _ _ => rfl⟩
      · rw [writeLoop,if_neg hlt]
      · intro _ _ _
        rw [List.drop_eq_nil_of_le (by omega),overlay_nil]

end Drive

inductive NvmeCall where
  | read (loc count : Nat)
  | write (buf : List (BitVec 8)) (loc : Nat)

def nvmeCall (ns : Namespace) (dev : Device ns) (s : Drive) :
    NvmeCall → Option ((Int × List (BitVec 8)) × Drive)
  | .read loc count => (s.nvmeRead ns dev loc count).map (fun x => ((x.1,x.2.1),x.2.2))
  | .write buf loc => (s.nvmeWrite ns dev buf loc).map (fun x => ((x.1,[]),x.2))

def flatCall (d : Nat → BitVec 8) : NvmeCall → (Int × List (BitVec 8)) × (Nat → BitVec 8)
  | .read loc count => ((ssizeT count,window d loc count),d)
  | .write buf loc => ((ssizeT buf.length,[]),overlay d loc buf)

namespace NvmeCall

def loc : NvmeCall → Nat
  | read loc _ => loc
  | write _ loc => loc

def count : NvmeCall → Nat
  | read _ count => count
  | write buf _ => buf.length

end NvmeCall

structure Drive.Fresh (s : Drive) : Prop where
  empty : ∀ i < 512, (s.cache i).status=0
  first : s.overwritten=0

theorem Drive.Fresh.coherent {s : Drive} (h : s.Fresh) (ns : Namespace) : s.Coherent ns :=
  ⟨fun i hi hv => absurd (h.empty i hi) hv,fun i hi hv => absurd (h.empty i hi) hv,
    fun i hi _ _ hv => absurd (h.empty i hi) hv,by rw [h.first]; exact Nat.zero_le _⟩

section

variable {ns : Namespace} {dev : Device ns}

/-- A call returns its count, whatever the device answers. If no command fails the
cache stays coherent, and on a request inside the namespace the call does what it
does on a flat array. -/
theorem nvmeCall_spec (s : Drive) (c : NvmeCall) : ∃ bytes s',
    nvmeCall ns dev s c=some ((ssizeT c.count,bytes),s') ∧
    (s.Coherent ns → s'.failed=s.failed → s'.Coherent ns ∧
      (c.loc+c.count ≤ ns.size → flatCall s.disk c=((ssizeT c.count,bytes),s'.disk))) ∧
    (s.Coherent ns → Drive.Executes dev → c.loc+c.count ≤ ns.size → s'.failed=s.failed) := by
  cases c with
  | read loc count =>
    obtain ⟨bytes,s',hloop,hread⟩ : ∃ bytes s',
        Drive.readLoop ns dev loc count (count+1) 0 s=some (ssizeT count,bytes,s') ∧ _ :=
      Drive.readLoop_spec loc s (Nat.zero_le count) (Nat.lt_succ_self count)
    refine ⟨bytes,s',?_,?_,fun _ => hread.executes⟩
    · rw [nvmeCall,Drive.nvmeRead,hloop]
      rfl
    · intro hs hf
      obtain ⟨hs',hdisk⟩ := hread.coherent hs hf
      refine ⟨hs',?_⟩
      intro hin
      rw [flatCall,hread.bytes hs hf hin,hdisk]
      rfl
  | write buf loc =>
    obtain ⟨s',hloop,hwrite⟩ : ∃ s',
        Drive.writeLoop ns dev buf loc (buf.length+1) 0 s=some (ssizeT buf.length,s') ∧ _ :=
      Drive.writeLoop_spec buf loc s (Nat.zero_le _) (Nat.lt_succ_self _)
    refine ⟨[],s',?_,?_,hwrite.executes⟩
    · rw [nvmeCall,Drive.nvmeWrite,hloop]
      rfl
    · intro hs hf
      refine ⟨hwrite.coherent hs hf,?_⟩
      intro hin
      rw [flatCall,hwrite.disk hs hf hin]
      rfl

theorem nvme_refines (hdev : Drive.Executes dev) : Refines (nvmeCall ns dev) flatCall
    (fun c => c.loc+c.count ≤ ns.size) (fun s d => s.Coherent ns ∧ s.disk=d) := by
  rintro s _ c o s' ⟨hs,rfl⟩ hin h
  obtain ⟨bytes,s₁,hcall,hflat,hexec⟩ : ∃ bytes s₁, nvmeCall ns dev s c=_ ∧ _ := nvmeCall_spec s c
  rw [hcall] at h
  cases h
  obtain ⟨hs',hsame⟩ := hflat hs (hexec hs hdev hin)
  rw [hsame hin]
  exact ⟨rfl,hs',rfl⟩

end

/-- The block cache is transparent: every call inside the namespace has the result
that it has on a flat array of bytes, the disk holds that array after the call, and
no block is in two valid slots. -/
theorem nvme_cache_transparent (ns : Namespace) (dev : Device ns) (hdev : Drive.Executes dev)
    (s₀ : Drive) (h₀ : s₀.Fresh) (calls : List NvmeCall)
    (hcalls : ∀ c∈calls, c.loc+c.count ≤ ns.size) :
    ∃ s, trace (nvmeCall ns dev) s₀ calls=some ((traceTotal flatCall s₀.disk calls).1,s) ∧
      s.disk=(traceTotal flatCall s₀.disk calls).2 ∧
      ∀ i < 512, ∀ j < 512, (s.cache i).status≠0 → (s.cache j).status≠0 →
        (s.cache i).block=(s.cache j).block → i=j := by
  have href := nvme_refines hdev
  have hstart : s₀.Coherent ns ∧ s₀.disk=s₀.disk := ⟨h₀.coherent ns,rfl⟩
  cases htrace : trace (nvmeCall ns dev) s₀ calls with
  | none =>
    obtain ⟨s,-,c,-,-,hnone⟩ := href.trace_none hstart hcalls htrace
    obtain ⟨bytes,s',hcall,-⟩ : ∃ bytes s', nvmeCall ns dev s c=_ ∧ _ := nvmeCall_spec s c
    rw [hnone] at hcall
    cases hcall
  | some x =>
    obtain ⟨hanswers,hs,hdisk⟩ := href.trace_eq hstart hcalls htrace
    exact ⟨x.2,by rw [← hanswers],hdisk,hs.distinct⟩

def smallNamespace : Namespace := ⟨⟨512,10,by decide,by decide⟩,by decide⟩

instance (ns : Namespace) (c : RwCommand) : Decidable (c.InRange ns) :=
  inferInstanceAs (Decidable (c.slba+c.len < ns.lbacount))

def failingDevice (ns : Namespace) (p : Nat → Bool) : Device ns where
  answer n c := ⟨if c.InRange ns ∧ p n=false then 0 else 1,fun _ => 0xee#8⟩
  refuses := by
    intro n c h
    simp [h]

def emptyDrive : Drive := ⟨fun _ => ⟨fun _ => 0,0,0⟩,0,0,fun _ => 0,0⟩

theorem emptyDrive_fresh : emptyDrive.Fresh := ⟨fun _ _ => rfl,rfl⟩

def edgeCalls : List NvmeCall :=
  [.write [1,2,3] 2047,.write [7] 5119,.read 2046 5,.read 5118 2]

theorem nvme_cache_transparent_edge : ∃ s,
    trace (nvmeCall smallNamespace (failingDevice smallNamespace (fun _ => false))) emptyDrive
      edgeCalls=some ([(3,[]),(1,[]),(5,[0,1,2,3,0]),(2,[0,7])],s) ∧
    s.disk=(traceTotal flatCall emptyDrive.disk edgeCalls).2 ∧
    ∀ i < 512, ∀ j < 512, (s.cache i).status≠0 → (s.cache j).status≠0 →
      (s.cache i).block=(s.cache j).block → i=j := by
  have hdev : Drive.Executes (failingDevice smallNamespace (fun _ => false)) := by
    intro n c h
    simp [failingDevice,h]
  have hflat : (traceTotal flatCall emptyDrive.disk edgeCalls).1=
      [(3,[]),(1,[]),(5,[0,1,2,3,0]),(2,[0,7])] := by
    decide +kernel
  rw [← hflat]
  exact nvme_cache_transparent smallNamespace _ hdev emptyDrive emptyDrive_fresh edgeCalls
    (by decide)

def Drive.Holds (s : Drive) (ns : Namespace) : Prop :=
  ∀ i < 512, (s.cache i).status≠0 → ∀ k < ns.blockBytes (s.cache i).block,
    (s.cache i).cache k=s.disk ((s.cache i).block*ns.cacheblocksize+k)

def nvmeSystem (ns : Namespace) (dev : Device ns) : System Drive NvmeCall :=
  .ofPartial (fun s c => (nvmeCall ns dev s c).map (fun x => x.2))

def Unfailing (ns : Namespace) (dev : Device ns) (s : Drive) (c : NvmeCall) : Prop :=
  ∀ o s', nvmeCall ns dev s c=some (o,s') → s'.failed=s.failed

/-- No call returns -1, so that a failure is reported, and the cache right after
it, exactly where there is none. -/
theorem nvme_failure_reported_iff (ns : Namespace) (dev : Device ns) (s₀ s s' : Drive)
    (h₀ : s₀.Fresh) (hr : ((nvmeSystem ns dev).restrict (Unfailing ns dev)).Reachable s₀ s)
    (c : NvmeCall) (hc : c.count < 2^63) (o : Int × List (BitVec 8))
    (h : nvmeCall ns dev s c=some (o,s')) :
    ((s'.failed≠s.failed → o.1= -1) ∧ s'.Holds ns) ↔ Unfailing ns dev s c := by
  have hs : s.Coherent ns := by
    refine hr.invariant (I := fun s => s.Coherent ns) (h₀.coherent ns) ?_
    rintro t d t' ht ⟨hd,hstep⟩
    obtain ⟨⟨o',t₁⟩,hcall,rfl⟩ := Option.map_eq_some_iff.mp hstep
    obtain ⟨bytes,t₂,hcall',hflat,-⟩ : ∃ bytes t₂, nvmeCall ns dev t d=_ ∧ _ := nvmeCall_spec t d
    rw [hcall] at hcall'
    cases hcall'
    exact (hflat ht (hd _ _ hcall)).1
  obtain ⟨bytes,s₁,hcall,hflat,-⟩ : ∃ bytes s₁, nvmeCall ns dev s c=_ ∧ _ := nvmeCall_spec s c
  rw [h] at hcall
  cases hcall
  constructor
  · rintro ⟨hret,-⟩ o' s₂ h'
    rw [h] at h'
    cases h'
    by_contra hf
    have hneg := hret hf
    dsimp only at hneg
    rw [ssizeT,if_pos hc] at hneg
    omega
  · intro hun
    have hf := hun _ _ h
    exact ⟨fun hne => absurd hf hne,(hflat hs hf).1.holds⟩

/-- A read that no command of fails: it returns a byte of the disk. -/
theorem nvme_failure_reported_iff_read : ∃ s',
    nvmeCall smallNamespace (failingDevice smallNamespace (fun _ => false)) emptyDrive
      (.read 0 1)=some ((1,[0]),s') ∧ s'.failed=0 ∧ s'.Holds smallNamespace := by
  have hrun : (nvmeCall smallNamespace (failingDevice smallNamespace (fun _ => false)) emptyDrive
      (.read 0 1)).map (fun x => (x.1,x.2.failed))=some ((1,[0]),0) := by
    decide +kernel
  obtain ⟨⟨o,s'⟩,hcall,hv⟩ := Option.map_eq_some_iff.mp hrun
  rw [Prod.mk.injEq] at hv
  obtain ⟨rfl,hfailed⟩ := hv
  have hun : Unfailing smallNamespace (failingDevice smallNamespace (fun _ => false)) emptyDrive
      (.read 0 1) := by
    intro o' s'' h
    rw [hcall] at h
    cases h
    exact hfailed
  exact ⟨s',hcall,hfailed,((nvme_failure_reported_iff smallNamespace _ emptyDrive emptyDrive s'
    emptyDrive_fresh Relation.ReflTransGen.refl (.read 0 1) (by decide) _ hcall).mpr hun).2⟩

/-- The first command fails: the read returns 1, and the slot that it filled is
valid with bytes that are not those of the disk. -/
theorem nvme_failure_unreported : ∃ s',
    nvmeCall smallNamespace (failingDevice smallNamespace (fun _ => true)) emptyDrive
      (.read 0 1)=some ((1,[0xee#8]),s') ∧ s'.failed≠emptyDrive.failed ∧
    ¬s'.Holds smallNamespace := by
  have hrun : (nvmeCall smallNamespace (failingDevice smallNamespace (fun _ => true)) emptyDrive
      (.read 0 1)).map (fun x => (x.1,x.2.failed,(x.2.cache 0).status,(x.2.cache 0).block,
        (x.2.cache 0).cache 0,x.2.disk 0))=some ((1,[0xee#8]),1,1,0,0xee#8,0) := by
    decide +kernel
  obtain ⟨⟨o,s'⟩,hcall,hv⟩ := Option.map_eq_some_iff.mp hrun
  simp only [Prod.mk.injEq] at hv
  obtain ⟨rfl,hfailed,hstatus,hblock,hcache,hdisk⟩ := hv
  refine ⟨s',hcall,by rw [hfailed]; decide,?_⟩
  intro hholds
  have hbyte := hholds 0 (by decide) (by rw [hstatus]; decide) 0 (by rw [hblock]; decide)
  rw [hblock,hcache,Nat.zero_mul,hdisk] at hbyte
  exact absurd hbyte (by decide)

end X64OS.Drivers
