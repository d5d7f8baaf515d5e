import X64OS.Memory.SlabOps

namespace X64OS.Memory

open Framework

variable {M : Machine} {P : Type} {A : PageAllocator M P}
variable {h h' : Heap P} {live : List Block} {L : Layout}
variable {a size n p : Nat} {b : Block} {i : Fin 10}

theorem mem_dropBlock : b∈dropBlock live a ↔ b∈live ∧ b.addr≠a := by
  simp [dropBlock]

theorem dropBlock_sublist (a : Nat) : (dropBlock live a).Sublist live := List.filter_sublist

structure Handed (A : PageAllocator M P) (h' : Heap P) (live : List Block) (b : Block) : Prop where
  pos : 0 < b.addr
  new : ∀ c∈live, c.addr≠b.addr
  sound : Sound A h' (b::live)

theorem popFree_handed (hi : HeapInv A h live L) (hne : (h.slabs i).firstFree≠0)
    (hsize : size ≤ entOf i) (hp : popFree M h i=some (a,h')) :
    Handed A h' live ⟨a,size,some i⟩ := by
  have hc := hi.chain i
  cases hl : L.free i with
  | nil =>
    rw [hl] at hc
    exact absurd hc hne
  | cons c l =>
    rw [hl] at hc
    have hmem : c∈L.free i := by rw [hl]; exact List.mem_cons_self
    have hs := hi.freeSlot i c hmem
    have hnd := hi.freeNodup i
    rw [hl,List.nodup_cons] at hnd
    have hhd : ¬c < M.hhdm := Nat.not_lt.mpr (hi.slot_base hs).2.2.1
    simp only [popFree,hc.1,if_neg hhd,Option.some.injEq,Prod.mk.injEq] at hp
    obtain ⟨rfl,rfl⟩ := hp
    have hsub : ∀ x∈l, x∈L.free i := by
      intro x hx
      rw [hl]
      exact List.mem_cons_of_mem _ hx
    have h1 := hi.relist i hc.2.2 hnd.2 (fun x hx => hi.freeSlot i x (hsub x hx))
      (fun x hx b hb hk => hi.freeNotLive i x (hsub x hx) b hb hk)
    have h2 := h1.addSlot hs (by dsimp only; rw [Function.update_self]; exact hnd.1)
      (hi.free_not_held hmem) hsize
    have h3 := h2.frame (Mem.sameOff_fill _ c (h.slabs i).entSize 0) (by
      rw [hi.ents i]
      exact h2.clear_extent List.mem_cons_self)
    exact ⟨(hi.slot_base hs).1,hi.free_not_held hmem,_,h3⟩

theorem allocFromSlab_pops (hi : HeapInv A h live L) (hp : allocFromSlab A h i=some (a,h')) :
    ∃ h₁ L₁, HeapInv A h₁ live L₁ ∧ (h₁.slabs i).firstFree≠0 ∧ popFree M h₁ i=some (a,h') ∧
      (h₁=h ∨ createSlab A h i (entOf i)=some h₁) := by
  unfold allocFromSlab at hp
  split at hp
  · obtain ⟨h₁,hc,hpop⟩ := Option.bind_eq_some_iff.mp hp
    rw [hi.ents i] at hc
    obtain ⟨p,hi₁,hfirst⟩ := createSlab_inv hi hc
    have hl := (entOf_ok i).low
    exact ⟨h₁,_,hi₁,by omega,hpop,.inr hc⟩
  · exact ⟨h,L,hi,‹_›,hp,.inl rfl⟩

theorem allocFromSlab_handed (hi : HeapInv A h live L) (hsize : size ≤ entOf i)
    (hp : allocFromSlab A h i=some (a,h')) : Handed A h' live ⟨a,size,some i⟩ := by
  obtain ⟨h₁,L₁,hi₁,hne,hpop,-⟩ := allocFromSlab_pops hi hp
  exact popFree_handed hi₁ hne hsize hpop

theorem sameOff_metadata (M : Machine) (m : Mem) (phys n : Nat) (pages size : BitVec 64) :
    Mem.SameOff (mapped M phys (n+1)) m
      ((m.write64 (phys+M.hhdm) pages).write64 (phys+M.hhdm+8) size) := by
  have hlen : pageSize ≤ (n+1)*pageSize := Nat.le_mul_of_pos_left _ (Nat.succ_pos _)
  apply ((Mem.sameOff_write64 _ _ _).widen _ _).trans ((Mem.sameOff_write64 _ _ _).widen _ _)
  all_goals
    simp only [pageSize] at hlen ⊢
    omega

theorem read_metadata (m : Mem) (hsize : size+4095 < 2^64) {g : Heap P}
    (hg : g.ram.mem=(m.write64 a (BitVec.ofNat 64 (divRoundup size 4096))).write64 (a+8)
      (BitVec.ofNat 64 size)) :
    metaPages g (a+pageSize)=divRoundup size 4096 ∧ metaSize g (a+pageSize)=size := by
  have hdr := divRoundup_eq size hsize
  rw [metaPages,metaSize,Nat.add_sub_cancel,hg,Mem.read64_write64_of_le _ _ _ _ (by omega),
    Mem.read64_write64,Mem.read64_write64,BitVec.toNat_ofNat,BitVec.toNat_ofNat,
    Nat.mod_eq_of_lt (by omega),Nat.mod_eq_of_lt (by omega)]
  exact ⟨rfl,rfl⟩

section
variable (hi : HeapInv A h live L)
include hi

theorem HeapInv.fresh_not_held {r : Ram P} {phys : Nat} (hg : Granted A h.ram r phys n)
    (ha : a∈mapped M phys n) : ∀ c∈live, c.addr≠a := by
  obtain ⟨hfp,hfb⟩ := hi.fresh_pages hg
  rintro c hc rfl
  cases hk : c.kind with
  | some i =>
    obtain ⟨p,hp,hs⟩ := (hi.liveSlot c hc i hk).1
    exact hfp _ hp c.addr ha (HeapInv.slotIn_page hs)
  | none =>
    apply hfb c hc hk c.addr ha
    have hb := hi.bigBase c hc hk
    rw [Block.region,Span.mem_mk]
    simp only [pageSize] at hb ⊢
    omega

theorem allocPages_handed (hsize : size+4095 < 2^64) (hbig : 0 < size)
    (hp : allocPages A h size=some (a,h')) : Handed A h' live ⟨a,size,none⟩ := by
  obtain ⟨⟨phys,r⟩,hr,he⟩ := Option.map_eq_some_iff.mp hp
  have hdr := divRoundup_eq size hsize
  obtain ⟨hg,-⟩ := pmmAlloc_granted hi.valid (Nat.le_add_left 1 _) hr
  have hpos := hg.pos
  simp only [if_neg (Nat.pos_iff_ne_zero.mp hpos),Prod.mk.injEq] at he
  obtain ⟨rfl,rfl⟩ := he
  have h1 := hg.aligned
  have h2 := M.hhdm_aligned
  have h3 := hg.bound
  have h4 := M.window
  let b : Block := ⟨phys+M.hhdm+pageSize,size,none⟩
  have hregion : b.region=mapped M phys (divRoundup size 4096+1) := by
    simp [b,Block.region,mapped]
  have hwrite := sameOff_metadata M r.mem phys (divRoundup size 4096)
    (BitVec.ofNat 64 (divRoundup size 4096)) (BitVec.ofNat 64 size)
  have hi1 := (hi.granted hg hwrite).recount (h.usedRam+BitVec.ofNat 64 size)
  obtain ⟨hfp,hfb⟩ := hi.fresh_pages hg
  have hbase : b.addr%pageSize=0 ∧ M.hhdm+pageSize < b.addr ∧
      b.addr+divRoundup b.size 4096*pageSize ≤ 2^64 ∧ b.size+4095 < 2^64 ∧
      1 ≤ divRoundup b.size 4096 := by
    simp only [b,pageSize] at h1 h2 h3 h4 ⊢
    omega
  have hin : b.addr∈mapped M phys (divRoundup size 4096+1) := by
    rw [mapped,Span.mem_mk]
    simp only [b,pageSize]
    omega
  have hnew := hi.fresh_not_held hg hin
  refine ⟨?_,hnew,_,hi1.addBig rfl hbase (read_metadata r.mem hsize rfl) ?_ ?_ ?_ hnew⟩
  · exact lt_of_le_of_lt (Nat.zero_le _) hbase.2.1
  · intro x hx
    exact hg.inUse x (by rw [← hregion]; exact hx)
  · intro p hp
    rw [hregion]
    exact (hfp p hp).symm
  · intro c hc hk
    rw [hregion]
    exact hfb c hc hk

theorem slabFor_some (hf : slabFor h size=some i) : size ≤ entOf i := by
  have hs := List.find?_some hf
  rw [hi.ents i] at hs
  simpa using hs

theorem slabFor_none (hf : slabFor h size=none) : 1024 < size := by
  have hs := List.find?_eq_none.mp hf 9 (List.mem_finRange _)
  rw [hi.ents 9] at hs
  have hent : entOf 9=1024 := rfl
  rw [hent] at hs
  simpa using hs

end

theorem slabAlloc_handed (hs : Sound A h live) (hsize : size+4095 < 2^64)
    (hp : slabAlloc A h size=some (a,h')) : Handed A h' live ⟨a,size,slabFor h size⟩ := by
  obtain ⟨L,hi⟩ := hs
  unfold slabAlloc at hp
  cases hf : slabFor h size with
  | some i =>
    rw [hf] at hp
    exact allocFromSlab_handed hi (slabFor_some hi hf) hp
  | none =>
    rw [hf] at hp
    have hbig := slabFor_none hi hf
    exact allocPages_handed hi hsize (by omega) hp

theorem Sound.write (hs : Sound A h live) (hb : b∈live) {m : Mem} {w : Span}
    (hw : ∀ x∈w, x∈b.extent) (hm : Mem.SameOff w h.ram.mem m) :
    Sound A { h with ram := ⟨m,h.ram.pmm⟩ } live := by
  obtain ⟨L,hi⟩ := hs
  exact ⟨L,hi.frame (hm.mono hw) (hi.clear_extent hb)⟩

theorem extent_base (b : Block) : b.extent.base=b.addr := by
  rw [Block.extent]
  cases b.kind <;> rfl

theorem mem_extent (hs : Sound A h live) (hb : b∈live) (hn : n ≤ b.size) :
    ∀ x∈(⟨b.addr,n⟩ : Span), x∈b.extent := by
  obtain ⟨L,hi⟩ := hs
  intro x hx
  have hle := hi.size_le_extent hb
  rw [Span.mem_mk] at hx
  rw [Span.mem_iff,extent_base]
  omega

theorem freeInSlab_sound (hs : Sound A h live) (hb : b∈live) (hk : b.kind=some i) :
    Sound A (freeInSlab h i b.addr) (dropBlock live b.addr) := by
  obtain ⟨L,hi⟩ := hs
  obtain ⟨hslot,-⟩ := hi.liveSlot b hb i hk
  have hpos := (hi.slot_base hslot).1
  have hword : ∀ x∈(⟨b.addr,8⟩ : Span), x∈b.extent := by
    rw [Block.extent,hk]
    exact HeapInv.link_le i b.addr
  have h1 := hi.frame
    ((Mem.sameOff_write64 h.ram.mem b.addr (BitVec.ofNat 64 (h.slabs i).firstFree)).mono hword)
    (hi.clear_extent hb)
  have h2 := h1.sub (dropBlock_sublist b.addr)
  have hlt := hi.firstFree_lt i
  have hchain := h1.chain i
  have h3 := h2.relist i (l := b.addr::L.free i) ⟨rfl,hpos,by
      rw [Mem.read64_write64,BitVec.toNat_ofNat,Nat.mod_eq_of_lt hlt]
      exact hchain⟩
    (List.nodup_cons.mpr ⟨fun hf => hi.freeNotLive i _ hf b hb hk rfl,hi.freeNodup i⟩)
    (List.forall_mem_cons.mpr ⟨hslot,hi.freeSlot i⟩)
    (List.forall_mem_cons.mpr ⟨fun c hc _ => (mem_dropBlock.mp hc).2,
      fun a ha c hc hkc => hi.freeNotLive i a ha c (mem_dropBlock.mp hc).1 hkc⟩)
  rw [freeInSlab,if_neg (Nat.pos_iff_ne_zero.mp hpos)]
  exact ⟨_,h3⟩

theorem slabAt_slabAddr (M : Machine) (i : Fin 10) : slabAt M (slabAddr M i)=some i := by
  have hlt := i.isLt
  have hd : slabAddr M i-M.slabs=32*i := by simp [slabAddr]
  have hm : 32*(i : Nat)%32=0 := Nat.mul_mod_right _ _
  have hq : 32*(i : Nat)/32=i := Nat.mul_div_cancel_left _ (by decide)
  have hc : M.slabs ≤ slabAddr M i ∧ (slabAddr M i-M.slabs)%32=0 ∧ (slabAddr M i-M.slabs)/32 < 10 := by
    rw [hd,hm,hq]
    exact ⟨Nat.le_add_right _ _,rfl,hlt⟩
  rw [slabAt,dif_pos hc]
  congr 1
  apply Fin.ext
  change (slabAddr M i-M.slabs)/32=i
  rw [hd,hq]

theorem headerSlab_slot (hi : HeapInv A h live L) (hs : SlotIn L i a) :
    headerSlab M h a=some i := by
  obtain ⟨p,hp,hs⟩ := hs
  have hb := hi.pageBase _ hp
  have hhead := hi.header _ hp
  dsimp only at hhead
  have hlt : slabAddr M i < 2^64 := by
    have h1 := M.slabs_le
    have h2 := i.isLt
    simp only [slabAddr]
    omega
  rw [headerSlab,(hs.page (entOf_ok i) hb.1).1,hhead,BitVec.toNat_ofNat,Nat.mod_eq_of_lt hlt,
    slabAt_slabAddr]

section
variable (hs : Sound A h live) (hb : b∈live)
include hs hb

theorem freePages_sound (hk : b.kind=none) :
    Sound A (freePages A h b.addr) (dropBlock live b.addr) := by
  obtain ⟨L,hi⟩ := hs
  have hbase := hi.bigBase b hb hk
  have hal := M.hhdm_aligned
  have hdr := divRoundup_eq b.size hbase.2.2.2.1
  have hcount : (metaPages h b.addr+1)%2^64=divRoundup b.size 4096+1 := by
    rw [(hi.bigMeta b hb hk).1]
    apply Nat.mod_eq_of_lt
    omega
  rw [freePages,hcount]
  -- a page being freed has its first byte in the block's region
  have hbyte : ∀ i∈(⟨(b.addr-pageSize-M.hhdm)/pageSize,divRoundup b.size 4096+1⟩ : Span),
      ∀ x, M.hhdm ≤ x → (x-M.hhdm)/pageSize=i → x∈b.region := by
    intro i hin x hx he
    rw [Span.mem_mk] at hin
    rw [Block.region,Span.mem_mk]
    simp only [pageSize] at hbase hal hin he ⊢
    omega
  have hkeep : ∀ s : Span, s.Separate b.region → (∀ x∈s, M.hhdm ≤ x) →
      (∀ x∈s, A.inUse h.ram.pmm ((x-M.hhdm)/pageSize)) →
      ∀ x∈s, A.inUse (A.free h.ram.pmm (b.addr-pageSize-M.hhdm) (divRoundup b.size 4096+1))
        ((x-M.hhdm)/pageSize) := by
    intro s hsep hlow hu x hx
    apply A.free_keeps _ _ _ _ hi.valid _ (hu x hx)
    intro hin
    exact hsep x hx (hbyte _ hin x (hlow x hx) rfl)
  have h1 := hi.sub (dropBlock_sublist b.addr)
  refine ⟨L,(h1.repage ?_ ?_ ?_).recount _⟩
  · apply A.free_valid _ _ _ hi.valid
    intro hin
    rw [Span.mem_mk] at hin
    simp only [pageSize] at hbase hal hin
    omega
  · intro q hq
    apply hkeep _ (hi.bigPage q hq b hb hk) _ (hi.pageUsed q hq)
    intro x hx
    rw [pageSpan,Span.mem_mk] at hx
    have hqb := (hi.pageBase q hq).2.1
    omega
  · intro c hc hkc
    obtain ⟨hcl,hne⟩ := mem_dropBlock.mp hc
    apply hkeep _ (hi.region_separate hcl hb hkc hk hne) _ (hi.bigUsed c hcl hkc)
    intro x hx
    rw [Block.region,Span.mem_mk] at hx
    have hcb := hi.bigBase c hcl hkc
    omega

theorem Sound.branch :
    b.addr≠0 ∧ (b.addr%pageSize=0 ↔ b.kind=none) ∧
    ∀ i, b.kind=some i → headerSlab M h b.addr=some i := by
  obtain ⟨L,hi⟩ := hs
  cases hk : b.kind with
  | none =>
    have hbase := hi.bigBase b hb hk
    exact ⟨by omega,iff_of_true hbase.1 rfl,fun i hc => nomatch hc⟩
  | some i =>
    obtain ⟨hslot,-⟩ := hi.liveSlot b hb i hk
    have hbase := hi.slot_base hslot
    refine ⟨by omega,iff_of_false hbase.2.2.2 (fun hc => nomatch hc),?_⟩
    intro j hj
    cases hj
    exact headerSlab_slot hi hslot

theorem slabFree_eq :
    slabFree A h b.addr=
      match b.kind with
      | none => some (freePages A h b.addr)
      | some i => some (freeInSlab h i b.addr) := by
  obtain ⟨hne,hal,hhead⟩ := hs.branch hb
  cases hk : b.kind with
  | none => rw [slabFree,if_neg hne,if_pos (hal.mpr hk)]
  | some i =>
    have hn : ¬b.addr%pageSize=0 := fun hc => by rw [hal.mp hc] at hk; cases hk
    rw [slabFree,if_neg hne,if_neg hn,hhead i hk]
    rfl

theorem slabRealloc_eq (size : Nat) :
    slabRealloc A h b.addr size=
      match b.kind with
      | none => reallocPages A h b.addr size
      | some i => reallocSlot A h i b.addr size := by
  obtain ⟨hne,hal,hhead⟩ := hs.branch hb
  cases hk : b.kind with
  | none => rw [slabRealloc,if_neg hne,if_pos (hal.mpr hk)]
  | some i =>
    have hn : ¬b.addr%pageSize=0 := fun hc => by rw [hal.mp hc] at hk; cases hk
    rw [slabRealloc,if_neg hne,if_neg hn,hhead i hk]
    rfl

/-- Freeing a held block always returns. -/
theorem slabFree_sound :
    ∃ h', slabFree A h b.addr=some h' ∧ Sound A h' (dropBlock live b.addr) := by
  rw [slabFree_eq hs hb]
  cases hk : b.kind with
  | none => exact ⟨_,rfl,freePages_sound hs hb hk⟩
  | some i => exact ⟨_,rfl,freeInSlab_sound hs hb hk⟩

end

theorem dropBlock_cons (hne : b.addr≠a) : dropBlock (b::live) a=b::dropBlock live a := by
  simp [dropBlock,hne]

theorem copyBlock_sound (hs : Sound A h live) (hb : b∈live) (src : Nat) (hn : n ≤ b.size) :
    Sound A (copyBlock h b.addr src n) live :=
  hs.write hb (mem_extent hs hb hn) (sameOff_memcpy h.ram.mem b.addr src n)

theorem clearBlock_sound (hs : Sound A h live) (hb : b∈live) (hn : n ≤ b.size) :
    Sound A (clearBlock h b.addr n) live :=
  hs.write hb (mem_extent hs hb hn) (Mem.sameOff_fill h.ram.mem b.addr n 0)

theorem HeapInv.clear_region (hi : HeapInv A h live L) (hb : b∈live) (hk : b.kind=none) :
    Clear (dropBlock live b.addr) L b.region := by
  refine ⟨?_,?_,?_⟩
  · intro p hp
    apply (hi.bigPage p hp b hb hk).symm.mono (fun _ hx => hx)
    intro x hx
    rw [Span.mem_mk] at hx
    rw [pageSpan,Span.mem_mk]
    simp only [pageSize]
    omega
  · intro i a ha
    exact (hi.slot_region (hi.freeSlot i a ha) hb hk).symm.mono (fun _ hx => hx) (HeapInv.link_le i a)
  · intro c hc hkc
    obtain ⟨hcl,hne⟩ := mem_dropBlock.mp hc
    exact (hi.region_separate hb hcl hk hkc hne.symm).mono (fun _ hx => hx) (hi.meta_le hcl hkc)

theorem HeapInv.resize (hi : HeapInv A h live L) (hb : b∈live) (hk : b.kind=none)
    (hsize : size+4095 < 2^64) (he : divRoundup b.size 4096=divRoundup size 4096) {m : Mem}
    (hm : Mem.SameOff b.region h.ram.mem m)
    (hmeta : (m.read64 (b.addr-pageSize)).toNat=divRoundup size 4096 ∧
      (m.read64 (b.addr-pageSize+8)).toNat=size) :
    HeapInv A { h with ram := ⟨m,h.ram.pmm⟩ } (⟨b.addr,size,none⟩::dropBlock live b.addr) L := by
  have hbase := hi.bigBase b hb hk
  have hregion : (⟨b.addr,size,none⟩ : Block).region=b.region := by simp [Block.region,he]
  have h1 := (hi.sub (dropBlock_sublist b.addr)).frame hm (hi.clear_region hb hk)
  apply h1.addBig rfl
  · dsimp only
    rw [← he]
    exact ⟨hbase.1,hbase.2.1,hbase.2.2.1,hsize,hbase.2.2.2.2⟩
  · exact hmeta
  · rw [hregion]
    exact hi.bigUsed b hb hk
  · rw [hregion]
    exact fun p hp => hi.bigPage p hp b hb hk
  · rw [hregion]
    intro c hc hkc
    obtain ⟨hcl,hne⟩ := mem_dropBlock.mp hc
    exact hi.region_separate hb hcl hk hkc hne.symm
  · exact fun c hc => (mem_dropBlock.mp hc).2

theorem resizePages_sound (hs : Sound A h live) (hb : b∈live) (hk : b.kind=none)
    (hsize : size+4095 < 2^64) (he : divRoundup b.size 4096=divRoundup size 4096) :
    Sound A { h with
      ram := ⟨h.ram.mem.write64 (b.addr-pageSize+8) (BitVec.ofNat 64 size),h.ram.pmm⟩ }
      (⟨b.addr,size,none⟩::dropBlock live b.addr) := by
  obtain ⟨L,hi⟩ := hs
  have hbase := hi.bigBase b hb hk
  have hword : ∀ x∈(⟨b.addr-pageSize+8,8⟩ : Span), x∈b.region := by
    intro x hx
    rw [Span.mem_mk] at hx
    rw [Block.region,Span.mem_mk]
    simp only [pageSize] at hx ⊢
    omega
  refine ⟨L,hi.resize hb hk hsize he ((Mem.sameOff_write64 h.ram.mem _ _).mono hword) ⟨?_,?_⟩⟩
  · rw [Mem.read64_write64_of_le _ _ _ _ (by omega),← he]
    exact (hi.bigMeta b hb hk).1
  · rw [Mem.read64_write64,BitVec.toNat_ofNat,Nat.mod_eq_of_lt (by omega)]

/-- What slab_realloc leaves of the list of held blocks: the old block is gone
and the result is in its place. -/
structure Moved (A : PageAllocator M P) (h h' : Heap P) (live : List Block) (old : Block)
    (p size : Nat) : Prop where
  pos : 0 < p
  new : ∀ c∈dropBlock live old.addr, c.addr≠p
  sound : Sound A h' (⟨p,size,if p=old.addr then old.kind else slabFor h size⟩
    ::dropBlock live old.addr)

theorem Moved.stay (hs : Sound A h live) (hb : b∈live)
    (hs' : Sound A h' (⟨b.addr,size,b.kind⟩::dropBlock live b.addr)) :
    Moved A h h' live b b.addr size := by
  refine ⟨Nat.pos_iff_ne_zero.mpr (hs.branch hb).1,fun c hc => (mem_dropBlock.mp hc).2,?_⟩
  rw [if_pos rfl]
  exact hs'

theorem Moved.away (hb : b∈live) {h1 : Heap P} (hh : Handed A h1 live ⟨p,size,slabFor h size⟩)
    (hs' : Sound A h' (dropBlock (⟨p,size,slabFor h size⟩::live) b.addr)) :
    Moved A h h' live b p size := by
  have hne : p≠b.addr := fun he => hh.new b hb he.symm
  refine ⟨hh.pos,fun c hc => hh.new c (mem_dropBlock.mp hc).1,?_⟩
  rw [if_neg hne]
  rwa [dropBlock_cons hne] at hs'

/-- How slab_realloc moves a block: a new one, as many bytes as both sizes have at
least, and the old one freed. -/
structure Relocated (A : PageAllocator M P) (h h' : Heap P) (live : List Block) (old : Block)
    (p size n : Nat) (h1 : Heap P) : Prop where
  alloc : slabAlloc A h size=some (p,h1)
  handed : Handed A h1 live ⟨p,size,slabFor h size⟩
  atLeast : min old.size size ≤ n
  fits : n ≤ size ∧ n ≤ old.extent.length
  free : slabFree A (copyBlock h1 p old.addr n) old.addr=some h'

section
variable (hs : Sound A h live) (hb : b∈live)
include hs hb

theorem reallocPages_cases (hk : b.kind=none) (hsize : size+4095 < 2^64)
    (hp : reallocPages A h b.addr size=some (p,h')) :
    if divRoundup b.size 4096=divRoundup size 4096 then
      p=b.addr ∧ h'={ h with
        ram := ⟨h.ram.mem.write64 (b.addr-pageSize+8) (BitVec.ofNat 64 size),h.ram.pmm⟩ }
    else ∃ n h1, Relocated A h h' live b p size n h1 := by
  have hs' := hs
  obtain ⟨L,hi⟩ := hs'
  simp only [reallocPages,(hi.bigMeta b hb hk).2] at hp
  split_ifs at hp ⊢ with hsame
  · cases hp
    exact ⟨rfl,rfl⟩
  · obtain ⟨⟨q,h1⟩,ha,he⟩ := Option.bind_eq_some_iff.mp hp
    have hh := slabAlloc_handed hs hsize ha
    rw [if_neg (Nat.pos_iff_ne_zero.mp hh.pos)] at he
    obtain ⟨h2,hf,he⟩ := Option.map_eq_some_iff.mp he
    cases he
    have hh' := hh.sound
    obtain ⟨L1,hi1⟩ := hh'
    -- the metadata is read again after the allocation, which has kept it
    rw [(hi1.bigMeta b (List.mem_cons_of_mem _ hb) hk).2] at hf
    have hle := hi.size_le_extent hb
    refine ⟨_,h1,ha,hh,?_,?_,hf⟩
    · split_ifs <;> omega
    · split_ifs <;> omega

theorem reallocSlot_cases (hk : b.kind=some i) (hsize : size+4095 < 2^64)
    (hp : reallocSlot A h i b.addr size=some (p,h')) :
    if size ≤ entOf i then p=b.addr ∧ h'=h
    else ∃ n h1, Relocated A h h' live b p size n h1 := by
  have hs' := hs
  obtain ⟨L,hi⟩ := hs'
  simp only [reallocSlot,hi.ents i] at hp
  by_cases hle : size ≤ entOf i
  · rw [if_neg (Nat.not_lt.mpr hle)] at hp
    rw [if_pos hle]
    cases hp
    exact ⟨rfl,rfl⟩
  · rw [if_pos (Nat.not_le.mp hle)] at hp
    rw [if_neg hle]
    obtain ⟨⟨q,h1⟩,ha,he⟩ := Option.map_eq_some_iff.mp hp
    have hh := slabAlloc_handed hs hsize ha
    rw [if_neg (Nat.pos_iff_ne_zero.mp hh.pos)] at he
    cases he
    have hh' := hh.sound
    obtain ⟨L1,hi1⟩ := hh'
    rw [hi1.ents i]
    have hfits : entOf i ≤ size ∧ entOf i ≤ b.extent.length := by
      rw [Block.extent,hk]
      exact ⟨by omega,Nat.le_refl _⟩
    have hcopy := copyBlock_sound hh.sound List.mem_cons_self b.addr hfits.1
    have hsz := (hi.liveSlot b hb i hk).2
    refine ⟨entOf i,h1,ha,hh,by omega,hfits,?_⟩
    have hfree := slabFree_eq hcopy (List.mem_cons_of_mem _ hb)
    rw [hk] at hfree
    exact hfree

/-- The ways through slab_realloc for a held block. -/
theorem slabRealloc_cases (hsize : size+4095 < 2^64)
    (hp : slabRealloc A h b.addr size=some (p,h')) :
    (p=b.addr ∧ h'=h ∧ ∃ i, b.kind=some i ∧ size ≤ entOf i) ∨
    (p=b.addr ∧ b.kind=none ∧ divRoundup b.size 4096=divRoundup size 4096 ∧ h'={ h with
      ram := ⟨h.ram.mem.write64 (b.addr-pageSize+8) (BitVec.ofNat 64 size),h.ram.pmm⟩ }) ∨
    ((b.kind=none → divRoundup b.size 4096≠divRoundup size 4096) ∧
      ∃ n h1, Relocated A h h' live b p size n h1) := by
  rw [slabRealloc_eq hs hb] at hp
  cases hk : b.kind with
  | none =>
    rw [hk] at hp
    have hc := reallocPages_cases hs hb hk hsize hp
    split_ifs at hc with hsame
    · exact .inr (.inl ⟨hc.1,rfl,hsame,hc.2⟩)
    · exact .inr (.inr ⟨fun _ => hsame,hc⟩)
  | some i =>
    rw [hk] at hp
    have hc := reallocSlot_cases hs hb hk hsize hp
    split_ifs at hc with hle
    · exact .inl ⟨hc.1,hc.2,i,rfl,hle⟩
    · exact .inr (.inr ⟨fun hn => (Option.some_ne_none i hn).elim,hc⟩)

theorem slabRealloc_moved (hsize : size+4095 < 2^64)
    (hp : slabRealloc A h b.addr size=some (p,h')) : Moved A h h' live b p size := by
  obtain ⟨rfl,rfl,i,hk,hle⟩ | ⟨rfl,hk,hsame,rfl⟩ | ⟨-,n,h1,hr⟩ := slabRealloc_cases hs hb hsize hp
  · apply Moved.stay hs hb
    obtain ⟨L,hi⟩ := hs
    obtain ⟨hslot,-⟩ := hi.liveSlot b hb i hk
    rw [hk]
    exact ⟨L,(hi.sub (dropBlock_sublist b.addr)).addSlot hslot
      (fun hf => hi.freeNotLive i _ hf b hb hk rfl) (fun c hc => (mem_dropBlock.mp hc).2) hle⟩
  · apply Moved.stay hs hb
    rw [hk]
    exact resizePages_sound hs hb hk hsize hsame
  · have hcopy := copyBlock_sound hr.handed.sound List.mem_cons_self b.addr hr.fits.1
    obtain ⟨h3,hf3,hs3⟩ := slabFree_sound hcopy (List.mem_cons_of_mem _ hb)
    rw [hr.free] at hf3
    cases hf3
    exact Moved.away hb hr.handed hs3

end

theorem malloc_handed (hs : Sound A h live) (hsize : size+4095 < 2^64)
    (hp : malloc A h size=some (a,h')) : Handed A h' live ⟨a,size,slabFor h size⟩ := by
  obtain ⟨⟨q,h1⟩,ha,he⟩ := Option.map_eq_some_iff.mp hp
  cases he
  have hh := slabAlloc_handed hs hsize ha
  exact ⟨hh.pos,hh.new,clearBlock_sound hh.sound List.mem_cons_self le_rfl⟩

end X64OS.Memory
