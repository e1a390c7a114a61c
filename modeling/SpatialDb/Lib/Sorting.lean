import Mathlib

/-!
# Sorting without stability

`std::sort` leaves the order of equivalent elements open.  `StdSort` is any
function that sorts as it must, so that what is proved of it does not rest on
one order among others.
-/

namespace SpatialDb.Lib

open List Bool

variable {α β : Type*}

/-! ## Ordered lists -/

section Ordered

variable {r : α → α → Prop} {p : α → Bool} {l : List α}

/-- In an ordered list, the leading elements with a property that is closed
downwards are all of them. -/
theorem takeWhile_eq_filter (hsorted : l.Pairwise r)
    (hp : ∀ a ∈ l, ∀ b ∈ l, r a b → p b = true → p a = true) : l.takeWhile p = l.filter p := by
  induction l with
  | nil => rfl
  | cons a l ih =>
    obtain ⟨ha, hl⟩ := pairwise_cons.mp hsorted
    cases hpa : p a with
    | true =>
      rw [takeWhile_cons_of_pos hpa, filter_cons_of_pos hpa]
      rw [ih hl fun a' ha' b hb => hp a' (mem_cons_of_mem _ ha') b (mem_cons_of_mem _ hb)]
    | false =>
      have hnot : ¬ p a = true := by simp [hpa]
      rw [takeWhile_cons_of_neg hnot, filter_cons_of_neg hnot, eq_comm, filter_eq_nil_iff]
      exact fun b hb hpb =>
        hnot (hp a mem_cons_self b (mem_cons_of_mem _ hb) (ha b hb) hpb)

/-- The elements with such a property are the first ones. -/
theorem filter_eq_take (hsorted : l.Pairwise r)
    (hp : ∀ a ∈ l, ∀ b ∈ l, r a b → p b = true → p a = true) :
    l.filter p = l.take (l.filter p).length := by
  have hfirst := takeWhile_prefix (l := l) p
  rwa [prefix_iff_eq_take, takeWhile_eq_filter hsorted hp] at hfirst

theorem dropWhile_eq_filter (hsorted : l.Pairwise r)
    (hp : ∀ a ∈ l, ∀ b ∈ l, r a b → p b = true → p a = true) :
    l.dropWhile p = l.filter fun a => !p a := by
  induction l with
  | nil => rfl
  | cons a l ih =>
    obtain ⟨ha, hl⟩ := pairwise_cons.mp hsorted
    cases hpa : p a with
    | true =>
      rw [dropWhile_cons_of_pos hpa, filter_cons_of_neg (by simp [hpa])]
      exact ih hl fun a' ha' b hb =>
        hp a' (mem_cons_of_mem _ ha') b (mem_cons_of_mem _ hb)
    | false =>
      have hnot : ¬ p a = true := by simp [hpa]
      rw [dropWhile_cons_of_neg hnot, filter_cons_of_pos (by simp [hpa]), eq_comm]
      refine congrArg (a :: ·) (filter_eq_self.mpr fun b hb => ?_)
      cases hpb : p b with
      | true =>
        have hclosed := hp a mem_cons_self b (mem_cons_of_mem _ hb)
        exact absurd (hclosed (ha b hb) hpb) hnot
      | false => rfl

end Ordered

/-! ## Comparisons -/

/-- What `std::sort` asks of a comparison. -/
structure StrictWeak (less : α → α → Bool) : Prop where
  asymm : ∀ {a b}, less a b = true → less b a = false
  negTrans : ∀ {a b c}, less a b = false → less b c = false → less a c = false

variable {less : α → α → Bool} {key : α → β} {l : List α}

theorem StrictWeak.of_key [LinearOrder β] (key : α → β)
    (h : ∀ a b, less a b = true ↔ key a < key b) :
    StrictWeak less where
  asymm {a b} hab := by
    rw [← not_eq_true, h]
    exact (h a b |>.mp hab).asymm
  negTrans {a b c} hab hbc := by
    rw [← not_eq_true, h, not_lt] at *
    exact hbc.trans hab

/-- An order of the elements of `l` in which none is less than one before it. -/
structure Arranges (less : α → α → Bool) (l sorted : List α) : Prop where
  perm : sorted.Perm l
  pairwise : sorted.Pairwise fun a b => less b a = false

/-- `std::sort`. -/
structure StdSort (α : Type*) where
  run : (α → α → Bool) → List α → List α
  arranges : ∀ {less}, StrictWeak less → ∀ l, Arranges less l (run less l)

theorem StrictWeak.not_less_trans (h : StrictWeak less) (a b c : α) (hab : (!less b a) = true)
    (hbc : (!less c b) = true) : (!less c a) = true := by
  rw [not_eq_true'] at *
  exact h.negTrans hbc hab

theorem StrictWeak.not_less_total (h : StrictWeak less) (a b : α) :
    (!less b a || !less a b) = true := by
  cases hab : less b a with
  | false => rfl
  | true => simp [h.asymm hab]

/-- A stable sort is one. -/
def StdSort.stable : StdSort α where
  run less l := l.mergeSort fun a b => !less b a
  arranges {less} h l := by
    have hsorted : (l.mergeSort fun a b => !less b a).Pairwise fun a b => (!less b a) = true :=
      List.pairwise_mergeSort h.not_less_trans h.not_less_total l
    exact ⟨List.mergeSort_perm l _, hsorted.imp fun hab => by simpa using hab⟩

theorem Arranges.pairwise_le [LinearOrder β] (hless : ∀ a b, less a b = true ↔ key a < key b)
    {sorted : List α} (h : Arranges less l sorted) : sorted.Pairwise fun a b => key a ≤ key b := by
  refine h.pairwise.imp fun {a b} hab => ?_
  rw [← not_eq_true, hless, not_lt] at hab
  exact hab

theorem StdSort.run_of_key [LinearOrder β] (sort : StdSort α)
    (hless : ∀ a b, less a b = true ↔ key a < key b) (l : List α) :
    (sort.run less l).Perm l ∧ (sort.run less l).Pairwise fun a b => key a ≤ key b :=
  have harr := sort.arranges (StrictWeak.of_key key hless) l
  ⟨harr.perm, harr.pairwise_le hless⟩

/-- A stable sort leaves the elements of one key in their order. -/
theorem StdSort.filter_stable [LinearOrder β] (hless : ∀ a b, less a b = true ↔ key a < key b)
    (l : List α) (b : β) :
    (StdSort.stable.run less l).filter (fun a => key a = b) = l.filter fun a => key a = b := by
  have hweak := StrictWeak.of_key key hless
  have hpair : (l.filter fun a => key a = b).Pairwise fun a c => (!less c a) = true := by
    refine pairwise_iff_forall_sublist.mpr ?_
    intro a c hac
    have ha : key a = b := by simpa using of_mem_filter (hac.subset (mem_cons_self ..))
    have hc : key c = b := by simpa using of_mem_filter (hac.subset (by simp : c ∈ [a, c]))
    rw [not_eq_true', ← not_eq_true, hless, ha, hc]
    exact lt_irrefl b
  have hsub : List.Sublist (l.filter fun a => key a = b) (StdSort.stable.run less l) :=
    sublist_mergeSort hweak.not_less_trans hweak.not_less_total hpair filter_sublist
  have hfilter := hsub.filter fun a => decide (key a = b)
  rw [filter_filter] at hfilter
  simp only [Bool.and_self] at hfilter
  exact (hfilter.eq_of_length ((mergeSort_perm l _).filter _).length_eq.symm).symm

/-- Sorted lists with the same elements of each key, in the same order, are
equal. -/
theorem eq_of_filter_eq [LinearOrder β] {l' : List α} (hl : l.Pairwise fun a b => key a ≤ key b)
    (hl' : l'.Pairwise fun a b => key a ≤ key b)
    (h : ∀ b, l.filter (fun a => key a = b) = l'.filter fun a => key a = b) : l = l' := by
  induction l generalizing l' with
  | nil =>
    cases l' with
    | nil => rfl
    | cons a' l' => simpa using h (key a')
  | cons a l ih =>
    cases l' with
    | nil => simpa using h (key a)
    | cons a' l' =>
      rw [pairwise_cons] at hl hl'
      -- the smaller of the two heads would be missing in the other list
      have hle : key a ≤ key a' := by
        by_contra hlt
        have hmem : a' ∈ (a :: l).filter fun x => key x = key a' := by
          rw [h (key a')]
          simp
        rcases mem_cons.mp (mem_of_mem_filter hmem) with rfl | hmem
        · exact hlt le_rfl
        · exact hlt (hl.1 a' hmem)
      have hge : key a' ≤ key a := by
        by_contra hlt
        have hmem : a ∈ (a' :: l').filter fun x => key x = key a := by
          rw [← h (key a)]
          simp
        rcases mem_cons.mp (mem_of_mem_filter hmem) with rfl | hmem
        · exact hlt le_rfl
        · exact hlt (hl'.1 a hmem)
      have hkey : key a = key a' := le_antisymm hle hge
      have hhead := h (key a)
      rw [filter_cons_of_pos (by simp), filter_cons_of_pos (by simp [hkey])] at hhead
      obtain rfl := (cons.inj hhead).1
      refine congrArg (a :: ·) (ih hl.2 hl'.2 ?_)
      intro b
      have hb := h b
      rw [filter_cons, filter_cons] at hb
      split at hb
      · exact (cons.inj hb).2
      · exact hb

/-- Lists with the same elements of each key, in the same order, are sorted
alike. -/
theorem StdSort.stable_congr [LinearOrder β] (hless : ∀ a b, less a b = true ↔ key a < key b)
    {l' : List α} (h : ∀ b, l.filter (fun a => key a = b) = l'.filter fun a => key a = b) :
    StdSort.stable.run less l = StdSort.stable.run less l' := by
  refine eq_of_filter_eq (StdSort.stable.run_of_key hless l).2
    (StdSort.stable.run_of_key hless l').2 ?_
  intro b
  rw [StdSort.filter_stable hless, StdSort.filter_stable hless, h]

/-- In a sorted list of which at least `k` elements are at most `bound`, the
first `k` elements are. -/
theorem forall_mem_take_le [LinearOrder β] {bound : β} (h : l.Pairwise fun a b => key a ≤ key b)
    {k : Nat} (hk : k ≤ (l.filter fun a => key a ≤ bound).length) :
    ∀ a ∈ l.take k, key a ≤ bound := by
  induction l generalizing k with
  | nil => simp
  | cons x l ih =>
    obtain ⟨hx, hl⟩ := pairwise_cons.mp h
    cases k with
    | zero => simp
    | succ k =>
      by_cases hle : key x ≤ bound
      · have hk' : k ≤ (l.filter fun a => key a ≤ bound).length := by
          simpa [filter_cons, hle] using hk
        intro a ha
        rcases mem_cons.mp ha with rfl | ha
        · exact hle
        · exact ih hl hk' a ha
      -- everything behind `x` is above the bound too
      have hnone : (x :: l).filter (fun a => key a ≤ bound) = [] := by
        rw [filter_eq_nil_iff]
        intro a ha hsmall
        rcases mem_cons.mp ha with rfl | ha
        · exact hle (by simpa using hsmall)
        · exact hle ((hx a ha).trans (by simpa using hsmall))
      rw [hnone] at hk
      exact absurd hk (by simp)

/-! ## The smallest elements -/

/-- `chosen` holds `k` elements of `all` (or all of them) with the smallest
keys, in order. -/
structure Smallest [LinearOrder β] (key : α → β) (k : Nat) (all chosen : List α) : Prop where
  length : chosen.length = min k all.length
  subset : chosen ⊆ all
  nodup : chosen.Nodup
  sorted : chosen.Pairwise fun a b => key a ≤ key b
  least : ∀ a ∈ all, a ∉ chosen → ∀ x ∈ chosen, key x ≤ key a

/-- The elements that are above another one. -/
def aboveLeast [LinearOrder β] (key : α → β) (l : List α) : List α :=
  l.filter fun a => ∃ x ∈ l, key x < key a

variable [LinearOrder β] {key : α → β} {k limit : Nat}

/-- In a sorted list the elements behind the first `k` are not smaller. -/
theorem le_of_not_mem_take {l : List α} (h : l.Pairwise fun a b => key a ≤ key b) {a x : α}
    (ha : a ∈ l) (hnot : a ∉ l.take k) (hx : x ∈ l.take k) : key x ≤ key a := by
  rw [← take_append_drop k l] at h ha
  rcases mem_append.mp ha with ha | ha
  · exact absurd ha hnot
  · exact (pairwise_append.mp h).2.2 x hx a ha

theorem exists_least (key : α → β) {l : List α} (h : l ≠ []) : ∃ m ∈ l, ∀ a ∈ l, key m ≤ key a := by
  cases hm : l.argmin key with
  | none => exact absurd (argmin_eq_none.mp hm) h
  | some m => exact ⟨m, argmin_mem hm, fun a ha => le_of_mem_argmin ha hm⟩

/-- **The first `k` elements of a sorted sample of `limit` elements are the
smallest of all, if the sample is not cut short, or if so few elements near by
are above the least one that any sample has `k` others.** -/
theorem Smallest.of_sample {all near got sorted : List α}
    (hnear : near ⊆ all) (hlength : near.length ≤ all.length)
    (hbeyond : ∀ a ∈ all, a ∉ near → ∀ x ∈ near, key x ≤ key a)
    (hnodup : got.Nodup) (hgot : got ⊆ near) (hcut : got.length = min limit near.length)
    (hperm : sorted.Perm got) (hsorted : sorted.Pairwise fun a b => key a ≤ key b)
    (h : (near.length ≤ limit ∧ (k ≤ near.length ∨ near.length = all.length)) ∨
      (limit < near.length ∧ k ≤ limit ∧ (aboveLeast key near).length ≤ limit - k)) :
    Smallest key k all (sorted.take k) := by
  have hsub : sorted.take k ⊆ near := fun x hx =>
    hgot (hperm.subset (mem_of_mem_take hx))
  refine ⟨?_, fun x hx => hnear (hsub hx), ?_, ?_, ?_⟩
  · rw [length_take, hperm.length_eq, hcut]
    omega
  · exact (hperm.nodup_iff.mpr hnodup).sublist (take_sublist _ _)
  · exact hsorted.sublist (take_sublist _ _)
  · intro a ha hnot x hx
    by_cases hin : a ∈ near
    swap
    · exact hbeyond a ha hin x (hsub hx)
    rcases h with ⟨hroom, -⟩ | ⟨hlt, hk, hfew⟩
    · -- the sample is all there is near by
      have hall : got.Perm near := by
        refine (hnodup.subperm hgot).perm_of_length_le ?_
        rw [hcut]
        omega
      exact le_of_not_mem_take hsorted ((hperm.trans hall).mem_iff.mpr hin) hnot hx
    have hne : near ≠ [] := length_pos_iff.mp (by omega)
    obtain ⟨m, hm, hleast⟩ := exists_least key hne
    have hlarge : (sorted.filter fun y => ! decide (key y ≤ key m)).length ≤
        (aboveLeast key near).length := by
      have hnodup' := (hperm.nodup_iff.mpr hnodup).filter fun y => ! decide (key y ≤ key m)
      refine (hnodup'.subperm fun y hy => ?_).length_le
      obtain ⟨hy, hgt⟩ := mem_filter.mp hy
      refine mem_filter.mpr ⟨hgot (hperm.subset hy), ?_⟩
      exact decide_eq_true ⟨m, hm, by simpa using hgt⟩
    have hcount := length_eq_length_filter_add (l := sorted) fun y => decide (key y ≤ key m)
    rw [hperm.length_eq, hcut] at hcount
    have hsmall : ∀ y ∈ sorted.take k, key y ≤ key m := forall_mem_take_le hsorted (by omega)
    exact (hsmall x hx).trans (hleast a hin)

/-- **The converse, for the sample of the largest elements: if its first `k` are
the smallest of all, then it is not cut short, or all but a few elements near
by are least ones.** -/
theorem few_above_least {all near desc sorted : List α} (hk : 0 < k)
    (hnear : near ⊆ all) (hlength : near.length ≤ all.length) (hnodup : near.Nodup)
    (hdesc : desc.Perm near) (hpair : desc.Pairwise fun a b => key b ≤ key a)
    (hperm : sorted.Perm (desc.take limit)) (h : Smallest key k all (sorted.take k)) :
    (near.length ≤ limit ∧ (k ≤ near.length ∨ near.length = all.length)) ∨
      (limit < near.length ∧ k ≤ limit ∧ (aboveLeast key near).length ≤ limit - k) := by
  have hcount := h.length
  rw [length_take, hperm.length_eq, length_take, hdesc.length_eq] at hcount
  rcases Nat.lt_or_ge limit near.length with hlt | hge
  swap
  · exact .inl ⟨hge, by omega⟩
  have hkl : k ≤ limit := by omega
  refine .inr ⟨hlt, hkl, ?_⟩
  have hsplit := take_append_drop limit desc
  have hnodup' := hdesc.nodup_iff.mpr hnodup
  rw [← hsplit] at hpair hnodup'
  obtain ⟨-, -, hcross⟩ := pairwise_append.mp hpair
  have hdisjoint := (nodup_append.mp hnodup').2.2
  obtain ⟨x, hx⟩ : ∃ x, x ∈ sorted.take k := by
    apply exists_mem_of_length_pos
    rw [length_take, hperm.length_eq, length_take, hdesc.length_eq]
    omega
  have hin : ∀ y ∈ sorted.take k, y ∈ desc.take limit :=
    fun y hy => hperm.subset (mem_of_mem_take hy)
  -- what the sample leaves out is as small as what is chosen
  have hout : ∀ e ∈ desc.drop limit, ∀ y ∈ sorted.take k, key y ≤ key e := by
    intro e he y hy
    refine h.least e (hnear (hdesc.subset (mem_of_mem_drop he))) ?_ y hy
    exact fun hchosen => hdisjoint e (hin e hchosen) e he rfl
  obtain ⟨e, he⟩ : ∃ e, e ∈ desc.drop limit := by
    apply exists_mem_of_length_pos
    rw [length_drop, hdesc.length_eq]
    omega
  have hmin : ∀ a ∈ near, key x ≤ key a := by
    intro a ha
    rw [← hdesc.mem_iff, ← hsplit, mem_append] at ha
    rcases ha with ha | ha
    · exact (hout e he x hx).trans (hcross a ha e he)
    · exact hout a ha x hx
  have hsub : aboveLeast key near ⊆ sorted.drop k := by
    intro a ha
    obtain ⟨ha, habove⟩ := mem_filter.mp ha
    obtain ⟨y, hy, hya⟩ := of_decide_eq_true habove
    have hxa : key x < key a := (hmin y hy).trans_lt hya
    rw [← hdesc.mem_iff, ← hsplit, mem_append] at ha
    rcases ha with ha | ha
    · have hmem := hperm.mem_iff.mpr ha
      rw [← take_append_drop k sorted, mem_append] at hmem
      rcases hmem with hmem | hmem
      · exact absurd ((hout e he a hmem).trans (hcross x (hin x hx) e he)) hxa.not_ge
      · exact hmem
    · exact absurd (hcross x (hin x hx) a ha) hxa.not_ge
  have hle := ((hnodup.filter _).subperm hsub).length_le
  rw [length_drop, hperm.length_eq, length_take, hdesc.length_eq] at hle
  exact hle.trans (by omega)

end SpatialDb.Lib
