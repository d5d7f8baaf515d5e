import Mathlib.Data.Fintype.Pigeonhole
import Mathlib.Data.List.Nodup
import Mathlib.Logic.Relation
import Mathlib.Order.WellFounded

namespace X64OS.Framework

open Relation

/-- Among finitely many, a way on that never comes back comes to an end. -/
theorem wellFounded_of_acyclic {β : Type} [Finite β] {r : β → β → Prop}
    (h : ∀ b, ¬TransGen r b b) : WellFounded (fun c b => r b c) := by
  have : IsTrans β (fun c b => TransGen r b c) := ⟨fun _ _ _ h h' => h'.trans h⟩
  have : Std.Irrefl (fun c b => TransGen r b c) := ⟨h⟩
  have hwf := Finite.wellFounded_of_trans_of_irrefl (fun c b => TransGen r b c)
  exact Subrelation.wf (fun h => .single h) hwf

theorem foldlM_mono {α γ : Type} {f g : α → γ → Option α}
    (h : ∀ a x b, f a x=some b → g a x=some b) {xs : List γ} {a b : α}
    (hf : xs.foldlM f a=some b) : xs.foldlM g a=some b := by
  induction xs generalizing a with
  | nil => exact hf
  | cons x xs ih =>
    rw [List.foldlM_cons] at hf ⊢
    obtain ⟨c,hc,hf⟩ := Option.bind_eq_some_iff.mp hf
    exact Option.bind_eq_some_iff.mpr ⟨c,h a x c hc,ih hf⟩

theorem foldlM_ends {α γ : Type} {f : α → γ → Option α} {xs : List γ}
    (h : ∀ x∈xs, ∀ a, (f a x).isSome) (a : α) : (xs.foldlM f a).isSome := by
  induction xs generalizing a with
  | nil => rfl
  | cons x xs ih =>
    obtain ⟨b,hb⟩ := Option.isSome_iff_exists.mp (h x (by simp) a)
    rw [List.foldlM_cons,hb]
    exact ih (fun y hy => h y (by simp [hy])) b

/-- Places that hold items, of which some lead to another place; an item is in one place. -/
structure Places (β φ : Type) where
  items : β → List φ
  leads : φ → Option β
  apart : ∀ b c x, x∈items b → x∈items c → b=c

variable {n : Nat}

namespace Places

variable {β φ : Type} (G : Places β φ)

def Edge (b c : β) : Prop := ∃ x∈G.items b, G.leads x=some c

def Reaches : β → β → Prop := ReflTransGen G.Edge

def Acyclic : Prop := ∀ b, ¬TransGen G.Edge b b

def Covered (seen : List φ) (b : β) : Prop := ∀ c, G.Reaches b c → ∀ x∈G.items c, x∈seen

/-- No item was seen twice, and where a seen item leads everything was seen. -/
structure Closed (seen : List φ) : Prop where
  nodup : seen.Nodup
  below : ∀ x∈seen, ∀ c, G.leads x=some c → G.Covered seen c

variable {G}
variable {seen' xs : List φ} {c : β}

theorem Covered.mono {seen : List φ} {b : β} (h : G.Covered seen b) (hsub : seen ⊆ seen') :
    G.Covered seen' b :=
  fun c hc x hx => hsub (h c hc x hx)

theorem covered_of_items {seen : List φ} {b : β} (h : G.Closed seen) (hall : ∀ x∈G.items b, x∈seen) :
    G.Covered seen b := by
  intro c hc
  cases hc.cases_head with
  | inl heq =>
    subst heq
    exact hall
  | inr hstep =>
    obtain ⟨d,⟨x,hx,hlead⟩,hrest⟩ := hstep
    exact h.below x (hall x hx) d hlead c hrest

/-- What a visit from the place b adds: items of places that are reachable from there. -/
def Added (G : Places β φ) (b : β) (seen seen' : List φ) : Prop :=
  ∃ new, seen'=seen++new ∧ ∀ x∈new, ∃ c, G.Reaches b c ∧ x∈G.items c

theorem Added.subset {b : β} {seen : List φ} (h : G.Added b seen seen') : seen ⊆ seen' := by
  obtain ⟨new,rfl,-⟩ := h
  exact List.subset_append_left _ _

theorem Added.trans {b : β} {seen seen'' : List φ} (h : G.Added b seen seen')
    (h' : G.Added b seen' seen'') : G.Added b seen seen'' := by
  obtain ⟨new,rfl,hnew⟩ := h
  obtain ⟨new',rfl,hnew'⟩ := h'
  refine ⟨new++new',by rw [List.append_assoc],?_⟩
  intro x hx
  exact (List.mem_append.mp hx).elim (hnew x) (hnew' x)

def Visits (G : Places β φ) (below : β → List φ → Option (List φ)) : Prop :=
  ∀ b seen seen', G.Closed seen → below b seen=some seen' →
    G.Closed seen' ∧ G.Covered seen' b ∧ G.Added b seen seen'

theorem Acyclic.wellFounded [Finite β] (h : G.Acyclic) : WellFounded (fun c b => G.Edge b c) :=
  wellFounded_of_acyclic h

theorem exists_levels {P : Nat → φ → Prop} (hmono : ∀ n m x, n ≤ m → P n x → P m x)
    (h : ∀ x∈xs, ∃ n, P n x) : ∃ n, ∀ x∈xs, P n x := by
  induction xs with
  | nil => exact ⟨0,by simp⟩
  | cons x xs ih =>
    obtain ⟨n,hn⟩ := h x (by simp)
    obtain ⟨m,hm⟩ := ih (fun y hy => h y (by simp [hy]))
    refine ⟨max n m,?_⟩
    intro y hy
    rcases List.mem_cons.mp hy with rfl | hy
    · exact hmono n _ _ (Nat.le_max_left _ _) hn
    · exact hmono m _ _ (Nat.le_max_right _ _) (hm y hy)

/-- Everything in a place that an item leads to was seen before the item. -/
def Ordered (G : Places β φ) (seen : List φ) : Prop :=
  ∀ xs x ys, seen=xs++x::ys → ∀ c, G.leads x=some c → ∀ y∈G.items c, y∈xs

theorem ordered_nil : G.Ordered [] := by
  intro xs x ys h
  simp at h

theorem Ordered.concat {seen : List φ} {x : φ} (h : G.Ordered seen)
    (hx : ∀ c, G.leads x=some c → ∀ y∈G.items c, y∈seen) : G.Ordered (seen++[x]) := by
  intro xs z ys heq
  rcases List.eq_nil_or_concat ys with rfl | ⟨ys,y,rfl⟩
  · obtain ⟨rfl,hz⟩ := List.append_inj' heq rfl
    cases hz
    exact hx
  · rw [List.concat_eq_append,← List.cons_append,← List.append_assoc] at heq
    exact h xs z ys (List.append_inj' heq rfl).1

theorem Ordered.mem {seen : List φ} {x : φ} (h : G.Ordered seen) (hx : x∈seen)
    (hc : G.leads x=some c) {y : φ} (hy : y∈G.items c) : y∈seen := by
  obtain ⟨xs,ys,heq⟩ := List.append_of_mem hx
  rw [heq]
  exact List.mem_append_left _ (h xs x ys heq c hc y hy)

theorem Ordered.reaches {seen : List φ} (h : G.Ordered seen) {b : β} (hb : ∀ x∈G.items b, x∈seen)
    (hc : G.Reaches b c) : ∀ x∈G.items c, x∈seen := by
  induction hc with
  | refl => exact hb
  | tail _ hedge ih =>
    obtain ⟨x,hx,hlead⟩ := hedge
    exact fun y hy => h.mem (ih x hx) hlead hy

/-- The first time that an item was seen is behind that of what it leads to. -/
theorem Ordered.idxOf_lt [DecidableEq φ] {seen : List φ} (h : G.Ordered seen) {x : φ} (hx : x∈seen)
    (hc : G.leads x=some c) {y : φ} (hy : y∈G.items c) : seen.idxOf y < seen.idxOf x := by
  obtain ⟨xs,ys,hxs,heq⟩ := List.eq_append_cons_of_mem hx
  have hmem := h xs x ys hxs c hc y hy
  rw [hxs,List.idxOf_append_of_mem hmem,List.idxOf_append_of_notMem heq,List.idxOf_cons_self]
  exact List.idxOf_lt_length_of_mem hmem

theorem Ordered.transGen [DecidableEq φ] {seen : List φ} (h : G.Ordered seen) {b : β}
    (hb : ∀ x∈G.items b, x∈seen) (hc : TransGen G.Edge b c) :
    ∃ x∈G.items b, ∀ y∈G.items c, seen.idxOf y < seen.idxOf x := by
  induction hc with
  | single hedge =>
    obtain ⟨x,hx,hlead⟩ := hedge
    exact ⟨x,hx,fun y hy => h.idxOf_lt (hb x hx) hlead hy⟩
  | tail hmid hedge ih =>
    obtain ⟨x,hx,hlt⟩ := ih
    obtain ⟨y,hy,hlead⟩ := hedge
    have hseen := h.reaches hb hmid.to_reflTransGen y hy
    exact ⟨x,hx,fun z hz => Nat.lt_trans (h.idxOf_lt hseen hlead hz) (hlt y hy)⟩

/-- A place whose items were seen is in no cycle. -/
theorem Ordered.acyclic [DecidableEq φ] {seen : List φ} (h : G.Ordered seen) {b : β}
    (hb : ∀ x∈G.items b, x∈seen) : ¬TransGen G.Edge b b := by
  intro hcycle
  obtain ⟨x,hx,hlt⟩ := h.transGen hb hcycle
  exact Nat.lt_irrefl _ (hlt x hx)

section Visit

variable (G) [DecidableEq φ]

/-- An item that was not seen yet counts as seen after all that it leads to. -/
def visitItem (below : β → List φ → Option (List φ)) (seen : List φ) (x : φ) : Option (List φ) :=
  if x∈seen then some seen
  else
    (match G.leads x with
    | none => some seen
    | some c => below c seen).map (fun seen => seen++[x])

/-- The items of a place in turn, going down at most n levels. -/
def visitPlace : Nat → β → List φ → Option (List φ)
  | 0,_,_ => none
  | n+1,b,seen => (G.items b).foldlM (G.visitItem (visitPlace n)) seen

variable {G}
variable {below : β → List φ → Option (List φ)}

theorem visitItem_spec (hacyclic : G.Acyclic) (hbelow : G.Visits below) {b : β} {x : φ}
    (hx : x∈G.items b) {seen : List φ} (hseen : G.Closed seen)
    (h : G.visitItem below seen x=some seen') :
    G.Closed seen' ∧ x∈seen' ∧ G.Added b seen seen' := by
  unfold visitItem at h
  split at h
  · rename_i hmem
    cases h
    exact ⟨hseen,hmem,[],by simp,by simp⟩
  rename_i hfresh
  obtain ⟨mid,hmid,rfl⟩ := Option.map_eq_some_iff.mp h
  -- what the item leads to is below its place, so the item itself is not there
  have hdown : G.Closed mid ∧ x∉mid ∧ G.Added b seen mid ∧
      ∀ c, G.leads x=some c → G.Covered mid c := by
    cases hlead : G.leads x with
    | none =>
      rw [hlead] at hmid
      cases hmid
      exact ⟨hseen,hfresh,⟨[],by simp,by simp⟩,by simp⟩
    | some c =>
      rw [hlead] at hmid
      obtain ⟨hclosed,hcovered,new,hnew,hplaces⟩ := hbelow c seen mid hseen hmid
      have hedge : G.Edge b c := ⟨x,hx,hlead⟩
      refine ⟨hclosed,?_,⟨new,hnew,?_⟩,?_⟩
      · intro hmem
        rw [hnew,List.mem_append] at hmem
        obtain ⟨d,hd,hxd⟩ := hplaces x (hmem.resolve_left hfresh)
        rw [← G.apart b d x hx hxd] at hd
        exact hacyclic b (TransGen.head' hedge hd)
      · intro y hy
        obtain ⟨d,hd,hyd⟩ := hplaces y hy
        exact ⟨d,hd.head hedge,hyd⟩
      · intro c' hc'
        cases hc'
        exact hcovered
  obtain ⟨hclosed,hnot,hadded,hcovered⟩ := hdown
  have hsub : mid ⊆ mid++[x] := List.subset_append_left _ _
  refine ⟨⟨?_,?_⟩,by simp,hadded.trans ⟨[x],rfl,?_⟩⟩
  · rw [← List.concat_eq_append]
    exact hclosed.nodup.concat hnot
  · intro y hy c hc
    rcases List.mem_append.mp hy with hy | hy
    · exact (hclosed.below y hy c hc).mono hsub
    · rw [List.mem_singleton.mp hy] at hc
      exact (hcovered c hc).mono hsub
  · intro y hy
    rw [List.mem_singleton.mp hy]
    exact ⟨b,.refl,hx⟩

theorem foldlM_visitItem_spec (hacyclic : G.Acyclic) (hbelow : G.Visits below) {b : β}
    (hxs : ∀ x∈xs, x∈G.items b) {seen : List φ} (hseen : G.Closed seen)
    (h : xs.foldlM (G.visitItem below) seen=some seen') :
    G.Closed seen' ∧ (∀ x∈xs, x∈seen') ∧ G.Added b seen seen' := by
  induction xs generalizing seen with
  | nil =>
    cases h
    exact ⟨hseen,by simp,[],by simp,by simp⟩
  | cons x xs ih =>
    rw [List.foldlM_cons] at h
    obtain ⟨mid,hmid,h⟩ := Option.bind_eq_some_iff.mp h
    obtain ⟨hclosed,hx,hadded⟩ := visitItem_spec hacyclic hbelow (hxs x (by simp)) hseen hmid
    obtain ⟨hclosed',hall,hadded'⟩ := ih (fun y hy => hxs y (by simp [hy])) hclosed h
    refine ⟨hclosed',?_,hadded.trans hadded'⟩
    intro y hy
    rcases List.mem_cons.mp hy with rfl | hy
    · exact hadded'.subset hx
    · exact hall y hy

theorem visitPlace_visits (hacyclic : G.Acyclic) (n : Nat) : G.Visits (G.visitPlace n) := by
  induction n with
  | zero =>
    intro b seen seen' _ h
    cases h
  | succ n ih =>
    intro b seen seen' hseen h
    obtain ⟨hclosed,hall,hadded⟩ := foldlM_visitItem_spec hacyclic ih (fun _ hx => hx) hseen h
    exact ⟨hclosed,covered_of_items hclosed hall,hadded⟩

/-- More levels change nothing in a visit that ended. -/
theorem visitItem_mono {below' : β → List φ → Option (List φ)}
    (hle : ∀ b seen seen', below b seen=some seen' → below' b seen=some seen') {seen : List φ}
    {x : φ} (h : G.visitItem below seen x=some seen') : G.visitItem below' seen x=some seen' := by
  unfold visitItem at h ⊢
  split at h
  · rename_i hmem
    rw [if_pos hmem]
    exact h
  · rename_i hfresh
    rw [if_neg hfresh]
    obtain ⟨mid,hmid,rfl⟩ := Option.map_eq_some_iff.mp h
    cases hlead : G.leads x with
    | none =>
      rw [hlead] at hmid
      cases hmid
      rfl
    | some c =>
      rw [hlead] at hmid
      dsimp only
      rw [hle c seen mid hmid]
      rfl

theorem visitPlace_succ {b : β} {seen : List φ} (h : G.visitPlace n b seen=some seen') :
    G.visitPlace (n+1) b seen=some seen' := by
  induction n generalizing b seen seen' with
  | zero => cases h
  | succ n ih =>
    unfold visitPlace at h ⊢
    exact foldlM_mono (fun _ _ _ => visitItem_mono (fun _ _ _ => ih)) h

theorem visitPlace_mono {m : Nat} (hnm : n ≤ m) {b : β} {seen : List φ}
    (h : G.visitPlace n b seen=some seen') : G.visitPlace m b seen=some seen' := by
  induction hnm with
  | refl => exact h
  | step _ ih => exact visitPlace_succ ih

theorem isSome_foldlM (h : ∀ x∈xs, ∀ c, G.leads x=some c → ∀ seen, (below c seen).isSome)
    (seen : List φ) : (xs.foldlM (G.visitItem below) seen).isSome := by
  apply foldlM_ends
  intro x hx seen
  unfold visitItem
  split
  · rfl
  · rw [Option.isSome_map]
    cases hlead : G.leads x with
    | none => rfl
    | some c => exact h x hx c hlead seen

/-- From every place the visit ends. -/
theorem visitPlace_ends [Finite β] (hacyclic : G.Acyclic) (b : β) :
    ∃ n, ∀ seen, (G.visitPlace n b seen).isSome := by
  induction b using hacyclic.wellFounded.induction with
  | _ b ih =>
    have hlevels : ∃ n, ∀ x∈G.items b, ∀ c, G.leads x=some c → ∀ seen,
        (G.visitPlace n c seen).isSome := by
      refine exists_levels ?_ ?_
      · intro n m x hnm h c hc seen
        obtain ⟨seen',hseen'⟩ := Option.isSome_iff_exists.mp (h c hc seen)
        rw [visitPlace_mono hnm hseen']
        rfl
      · intro x hx
        cases hlead : G.leads x with
        | none => exact ⟨0,by simp⟩
        | some c =>
          obtain ⟨n,hn⟩ := ih c ⟨x,hx,hlead⟩
          refine ⟨n,?_⟩
          intro c' hc'
          cases hc'
          exact hn
    obtain ⟨n,hn⟩ := hlevels
    exact ⟨n+1,fun seen => isSome_foldlM hn seen⟩

def visitAll (G : Places β φ) (n : Nat) (bs : List β) (seen : List φ) : Option (List φ) :=
  bs.foldlM (fun seen b => G.visitPlace n b seen) seen

theorem visitAll_spec (hacyclic : G.Acyclic) {bs : List β} {seen : List φ} (hseen : G.Closed seen)
    (h : G.visitAll n bs seen=some seen') :
    G.Closed seen' ∧ seen ⊆ seen' ∧ (∀ b∈bs, G.Covered seen' b) ∧
      ∀ x∈seen', x∈seen ∨ ∃ b∈bs, ∃ c, G.Reaches b c ∧ x∈G.items c := by
  induction bs generalizing seen with
  | nil =>
    cases h
    exact ⟨hseen,List.Subset.refl _,by simp,fun x hx => .inl hx⟩
  | cons b bs ih =>
    rw [visitAll,List.foldlM_cons] at h
    obtain ⟨mid,hmid,h⟩ := Option.bind_eq_some_iff.mp h
    obtain ⟨hclosed,hcovered,hadded⟩ := visitPlace_visits hacyclic n b seen mid hseen hmid
    obtain ⟨hclosed',hsub,hall,hfrom⟩ := ih hclosed h
    refine ⟨hclosed',List.Subset.trans hadded.subset hsub,?_,?_⟩
    · intro c hc
      rcases List.mem_cons.mp hc with rfl | hc
      · exact hcovered.mono hsub
      · exact hall c hc
    · intro x hx
      rcases hfrom x hx with hx | ⟨c,hc,hfar⟩
      · obtain ⟨new,rfl,hnew⟩ := hadded
        rcases List.mem_append.mp hx with hx | hx
        · exact .inl hx
        · exact .inr ⟨b,by simp,hnew x hx⟩
      · exact .inr ⟨c,by simp [hc],hfar⟩

/-- The visit ends with one result, however many levels there are beyond some number, and
has seen each item of each reachable place once and nothing else. -/
theorem visitAll_complete [Finite β] (hacyclic : G.Acyclic) (bs : List β) :
    ∃ seen n, (∀ m, n ≤ m → G.visitAll m bs []=some seen) ∧ seen.Nodup ∧
      ∀ x, x∈seen ↔ ∃ b∈bs, ∃ c, G.Reaches b c ∧ x∈G.items c := by
  have hends : ∀ seen, ∃ seen' n, ∀ m, n ≤ m → G.visitAll m bs seen=some seen' := by
    induction bs with
    | nil => exact fun seen => ⟨seen,0,fun _ _ => rfl⟩
    | cons b bs ih =>
      intro seen
      obtain ⟨n,hn⟩ := visitPlace_ends hacyclic b
      obtain ⟨mid,hmid⟩ := Option.isSome_iff_exists.mp (hn seen)
      obtain ⟨seen',k,hk⟩ := ih mid
      refine ⟨seen',max n k,fun m hm => ?_⟩
      rw [visitAll,List.foldlM_cons,visitPlace_mono (by omega : n ≤ m) hmid]
      exact hk m (by omega)
  obtain ⟨seen,n,hn⟩ := hends []
  have hnil : G.Closed [] := ⟨List.nodup_nil,by simp⟩
  obtain ⟨hclosed,-,hall,hfrom⟩ := visitAll_spec hacyclic hnil (hn n (Nat.le_refl _))
  refine ⟨seen,n,hn,hclosed.nodup,fun x => ⟨fun hx => ?_,?_⟩⟩
  · exact (hfrom x hx).resolve_left (by simp)
  · rintro ⟨b,hb,c,hc,hx⟩
    exact hall b hb c hc x hx

end Visit

end Places

theorem foldlM_filter_map {α β γ : Type} {f : α → γ → Option α} {g : β → γ → Option β}
    {r : β → α} {p : γ → Prop} [DecidablePred p]
    (h : ∀ b x, f (r b) x=(if p x then g b x else some b).map r) (xs : List γ) (b : β) :
    xs.foldlM f (r b)=((xs.filter (fun x => p x)).foldlM g b).map r := by
  induction xs generalizing b with
  | nil => rfl
  | cons x xs ih =>
    rw [List.foldlM_cons,h]
    by_cases hp : p x
    · rw [if_pos hp,List.filter_cons_of_pos (by simpa using hp),List.foldlM_cons]
      cases g b x with
      | none => rfl
      | some b' => exact ih b'
    · rw [if_neg hp,List.filter_cons_of_neg (by simpa using hp)]
      exact ih b

theorem iterate_eq_lt_card {α : Type} (e : α → Fin n) (he : Function.Injective e) (f : α → α)
    {x z : α} (h : ∃ k, f^[k] x=z) : ∃ k < n, f^[k] x=z := by
  classical
  refine ⟨Nat.find h,?_,Nat.find_spec h⟩
  by_contra hlong
  have hcard : Fintype.card (Fin n) < Fintype.card (Fin (Nat.find h+1)) := by
    rw [Fintype.card_fin,Fintype.card_fin]
    omega
  obtain ⟨i,j,hne,heq⟩ := Fintype.exists_ne_map_eq_of_card_lt
    (fun i : Fin (Nat.find h+1) => e (f^[i] x)) hcard
  have heq' : f^[i] x=f^[j] x := he heq
  -- the part of the chain between the two can be left out
  have hcut : ∀ a b : Nat, a < b → b ≤ Nat.find h → f^[a] x=f^[b] x → False := by
    intro a b hab hb hsame
    refine Nat.find_min h (show Nat.find h-b+a < Nat.find h by omega) ?_
    rw [Function.iterate_add_apply,hsame,← Function.iterate_add_apply,Nat.sub_add_cancel hb]
    exact Nat.find_spec h
  rcases Nat.lt_or_gt_of_ne (fun h => hne (Fin.ext h)) with hlt | hlt
  · exact hcut i j hlt (by omega) heq'
  · exact hcut j i hlt (by omega) heq'.symm

end X64OS.Framework
