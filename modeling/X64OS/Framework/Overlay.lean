import Mathlib.Data.List.Range

namespace X64OS.Framework

section

variable {β : Type} {f g : Nat → β} {a n i : Nat} {buf : List β}

def placedAt (a : Nat) (buf : List β) (i : Nat) : Option β := if a ≤ i then buf[i-a]? else none

def overlay (f : Nat → β) (a : Nat) (buf : List β) : Nat → β := fun i => (placedAt a buf i).getD (f i)

def window (f : Nat → β) (a n : Nat) : List β := (List.range n).map (fun i => f (a+i))

@[simp] theorem length_window (f : Nat → β) (a n : Nat) : (window f a n).length=n := by
  simp [window]

theorem window_congr (h : ∀ i < n, f (a+i)=g (a+i)) : window f a n=window g a n := by
  rw [window,window]
  apply List.map_congr_left
  intro i hi
  exact h i (List.mem_range.mp hi)

theorem placedAt_eq_none_iff : placedAt a buf i=none ↔ i < a ∨ a+buf.length ≤ i := by
  rw [placedAt]
  by_cases h : a ≤ i
  · rw [if_pos h,List.getElem?_eq_none_iff]
    omega
  · rw [if_neg h]
    simp only [true_iff]
    omega

theorem overlay_of_lt (h : i < a) : overlay f a buf i=f i := by
  rw [overlay,placedAt_eq_none_iff.mpr (.inl h)]
  rfl

theorem overlay_of_ge (h : a+buf.length ≤ i) : overlay f a buf i=f i := by
  rw [overlay,placedAt_eq_none_iff.mpr (.inr h)]
  rfl

theorem overlay_of_mem (ha : a ≤ i) (h : i-a < buf.length) : overlay f a buf i=buf[i-a] := by
  rw [overlay,placedAt,if_pos ha,List.getElem?_eq_getElem h]
  rfl

theorem window_append (f : Nat → β) (a m n : Nat) :
    window f a (m+n)=window f a m++window f (a+m) n := by
  simp only [window,List.range_add,List.map_append,List.map_map]
  congr 2
  funext i
  simp only [Function.comp_apply,Nat.add_assoc]

theorem window_succ (f : Nat → β) (a n : Nat) :
    window f a (n+1)=f a::window f (a+1) n := by
  rw [Nat.add_comm,window_append]
  rfl

theorem overlay_append (f : Nat → β) (a : Nat) (xs ys : List β) :
    overlay f a (xs++ys)=overlay (overlay f a xs) (a+xs.length) ys := by
  funext i
  by_cases hx : i < a+xs.length
  · rw [overlay_of_lt hx]
    by_cases ha : a ≤ i
    · have h : i-a < xs.length := by omega
      rw [overlay_of_mem ha h,overlay_of_mem ha (by rw [List.length_append]; omega),
        List.getElem_append_left h]
    · rw [overlay_of_lt (by omega),overlay_of_lt (by omega)]
  · by_cases hy : i < a+xs.length+ys.length
    · rw [overlay_of_mem (by omega) (by rw [List.length_append]; omega),
        overlay_of_mem (by omega) (by omega),List.getElem_append_right (by omega)]
      congr 1
      omega
    · rw [overlay_of_ge (by rw [List.length_append]; omega),overlay_of_ge (by omega),
        overlay_of_ge (by omega)]

theorem overlay_nil (f : Nat → β) (a : Nat) : overlay f a []=f := by
  funext i
  by_cases h : i < a
  · exact overlay_of_lt h
  · exact overlay_of_ge (by simpa using h)

theorem overlay_window (f g : Nat → β) (a b n i : Nat) :
    overlay f a (window g b n) i=if a ≤ i ∧ i < a+n then g (b+(i-a)) else f i := by
  by_cases h : a ≤ i ∧ i < a+n
  · rw [if_pos h,overlay_of_mem h.1 (by rw [length_window]; omega)]
    simp [window]
  · rw [if_neg h]
    by_cases ha : i < a
    · exact overlay_of_lt ha
    · exact overlay_of_ge (by rw [length_window]; omega)

theorem window_overlay (f : Nat → β) (a : Nat) (buf : List β) :
    window (overlay f a buf) a buf.length=buf := by
  refine List.ext_getElem (length_window _ _ _) ?_
  intro i _ hi
  simp only [window,List.getElem_map,List.getElem_range]
  rw [overlay_of_mem (Nat.le_add_right _ _) (by omega)]
  congr 1
  omega

/-- Read, modify, write: a copy of n elements that is changed in one place and
written back changes that place only. -/
theorem overlay_copy {c : Nat → β} {off : Nat} (hcopy : ∀ k < n, c k=f (a+k))
    (hlen : off+buf.length ≤ n) :
    overlay f a (window (overlay c off buf) 0 n)=overlay f (a+off) buf := by
  funext i
  rw [overlay_window]
  by_cases h : a ≤ i ∧ i < a+n
  · rw [if_pos h,Nat.zero_add]
    by_cases hlo : i < a+off
    · rw [overlay_of_lt (by omega),overlay_of_lt hlo,hcopy _ (by omega)]
      congr 1
      omega
    · by_cases hhi : i < a+off+buf.length
      · rw [overlay_of_mem (by omega) (by omega),overlay_of_mem (by omega) (by omega)]
        congr 1
        omega
      · rw [overlay_of_ge (by omega),overlay_of_ge (by omega),hcopy _ (by omega)]
        congr 1
        omega
  · rw [if_neg h]
    by_cases ha : i < a
    · rw [overlay_of_lt (by omega)]
    · rw [overlay_of_ge (by omega)]

end

end X64OS.Framework
