import Mathlib.Data.List.Forall2

/-!
# Stable sorting

What a stable sort does to the groups of a list. Two elements are in one group when each may stand before
the other.

## The architecture

* **`filter_mergeSort_of_alike`**: a part of the list whose elements are all in one group comes out of the
  sort as it went in; so does a whole group (**`filter_group_mergeSort`**).
* **`eq_of_sorted_of_groups`**: a sorted list is determined by its groups, so that two sorted lists with the
  same groups are equal.
* **`filter_mergeSort`**: picking elements and sorting commute.
* **`mergeSort_cons_of_le_all`**: a head that may stand before all others stays where it is.
* **`mergeSort_by_number`**: sorting by a number puts the groups of the numbers behind each other.
* **`forall₂_mergeSort`**: lists that agree place by place, their orders included, still do when sorted.
-/

namespace Melody.StableSort

variable {α : Type}

/-- A total preorder, as a test. -/
structure IsPreorder (le : α → α → Bool) : Prop where
  trans : ∀ a b c, le a b → le b c → le a c
  total : ∀ a b, (le a b || le b a) = true

theorem IsPreorder.refl {le : α → α → Bool} (h : IsPreorder le) (a : α) : le a a = true := by
  have := h.total a a
  simpa using this

theorem isPreorder_of_number (f : α → Nat) : IsPreorder fun a b => decide (f a ≤ f b) := by
  refine ⟨?_, ?_⟩
  · intro a b c hab hbc
    simp only [decide_eq_true_eq] at hab hbc ⊢
    omega
  · intro a b
    simp only [Bool.or_eq_true, decide_eq_true_eq]
    omega

section

variable {le : α → α → Bool}

/-- The elements of one group may all stand before each other. -/
theorem IsPreorder.alike (hle : IsPreorder le) (a b c : α) (hb : le a b && le b a) (hc : le a c && le c a) :
    le b c := by
  simp only [Bool.and_eq_true] at hb hc
  exact hle.trans b a c hb.2 hc.1

/-- Elements that may all stand before each other keep their order. -/
theorem filter_mergeSort_of_alike (hle : IsPreorder le) (p : α → Bool)
    (hp : ∀ a b, p a → p b → le a b) (l : List α) :
    (l.mergeSort le).filter p = l.filter p := by
  have hsorted : (l.filter p).Pairwise (fun a b => le a b) := by
    apply List.pairwise_of_forall_mem_list
    intro a ha b hb
    exact hp a b (List.mem_filter.1 ha).2 (List.mem_filter.1 hb).2
  -- the part is in order, so the sort keeps it as a sublist
  have hsub : (l.filter p).Sublist (l.mergeSort le) :=
    List.sublist_mergeSort hle.trans hle.total hsorted List.filter_sublist
  have hsub' : (l.filter p).Sublist ((l.mergeSort le).filter p) := by
    have := hsub.filter p
    rwa [List.filter_filter, show (fun a => p a && p a) = p from funext fun a => Bool.and_self _] at this
  have hlen : ((l.mergeSort le).filter p).length = (l.filter p).length :=
    ((List.mergeSort_perm l le).filter p).length_eq
  exact (hsub'.eq_of_length hlen.symm).symm

/-- A sorted list is determined by its groups. -/
theorem eq_of_sorted_of_groups (hle : IsPreorder le) {l m : List α}
    (hl : l.Pairwise (fun a b => le a b)) (hm : m.Pairwise (fun a b => le a b))
    (h : ∀ a, l.filter (fun b => le a b && le b a) = m.filter (fun b => le a b && le b a)) :
    l = m := by
  induction l generalizing m with
  | nil =>
    cases m with
    | nil => rfl
    | cons b m =>
      have := h b
      simp [hle.refl b] at this
  | cons a l ih =>
    cases m with
    | nil =>
      have := h a
      simp [hle.refl a] at this
    | cons b m =>
      -- each head belongs to the group of some element of the other list
      have hab : le a b := by
        have hb : b ∈ (a :: l).filter (fun c => le b c && le c b) := by
          rw [h b]
          simp [hle.refl b]
        rcases List.mem_cons.1 (List.mem_filter.1 hb).1 with rfl | hmem
        · exact hle.refl _
        · exact List.rel_of_pairwise_cons hl hmem
      have hba : le b a := by
        have ha : a ∈ (b :: m).filter (fun c => le a c && le c a) := by
          rw [← h a]
          simp [hle.refl a]
        rcases List.mem_cons.1 (List.mem_filter.1 ha).1 with rfl | hmem
        · exact hle.refl _
        · exact List.rel_of_pairwise_cons hm hmem
      -- so the heads are in one group and stand at its front
      have hhead := h a
      simp only [List.filter_cons, hle.refl a, hab, hba, Bool.and_self, if_true,
        List.cons.injEq] at hhead
      obtain ⟨rfl, -⟩ := hhead
      congr 1
      apply ih hl.tail hm.tail
      intro c
      have := h c
      simp only [List.filter_cons] at this
      split at this
      · exact List.tail_eq_of_cons_eq this
      · exact this

/-- Sorting keeps the order within a group. -/
theorem filter_group_mergeSort (hle : IsPreorder le) (a : α) (l : List α) :
    (l.mergeSort le).filter (fun b => le a b && le b a) = l.filter fun b => le a b && le b a :=
  filter_mergeSort_of_alike hle _ (hle.alike a) l

/-- The order in which two tests are applied does not matter. -/
theorem filter_filter_comm (p q : α → Bool) (l : List α) :
    (l.filter p).filter q = (l.filter q).filter p := by
  rw [List.filter_filter, List.filter_filter]
  exact List.filter_congr fun a _ => Bool.and_comm _ _

/-- Picking elements and sorting commute. -/
theorem filter_mergeSort (hle : IsPreorder le) (p : α → Bool) (l : List α) :
    (l.mergeSort le).filter p = (l.filter p).mergeSort le := by
  apply eq_of_sorted_of_groups hle
  · exact (List.pairwise_mergeSort hle.trans hle.total l).filter p
  · exact List.pairwise_mergeSort hle.trans hle.total _
  · intro a
    -- a group of the picked elements is what is picked of a group
    rw [filter_filter_comm, filter_group_mergeSort hle, filter_filter_comm, filter_group_mergeSort hle]

/-- What may stand before all others stays in front. -/
theorem mergeSort_cons_of_le_all (hle : IsPreorder le) {a : α} {l : List α} (h : ∀ b ∈ l, le a b) :
    (a :: l).mergeSort le = a :: l.mergeSort le := by
  apply eq_of_sorted_of_groups hle
  · exact List.pairwise_mergeSort hle.trans hle.total _
  · rw [List.pairwise_cons]
    refine ⟨fun b hb => ?_, List.pairwise_mergeSort hle.trans hle.total l⟩
    exact h b (List.mem_mergeSort.1 hb)
  · intro b
    rw [filter_group_mergeSort hle, List.filter_cons, List.filter_cons, filter_group_mergeSort hle]

end

section

variable {f : α → Nat} {l : List α} {n : Nat}

/-- Elements that all have a number are all picked by it. -/
theorem filter_number_eq_self (h : ∀ a ∈ l, f a = n) : (l.filter fun a => f a == n) = l :=
  List.filter_eq_self.2 fun a ha => beq_iff_eq.2 (h a ha)

/-- A number that no element has picks nothing. -/
theorem filter_number_eq_nil (h : ∀ a ∈ l, f a ≠ n) : (l.filter fun a => f a == n) = [] :=
  List.filter_eq_nil_iff.2 fun a ha hn => h a ha (beq_iff_eq.1 hn)

theorem number_of_mem_filter {a : α} (h : a ∈ l.filter fun a => f a == n) : f a = n :=
  beq_iff_eq.1 (List.mem_filter.1 h).2

end

/-- Of the elements of all numbers below a bound, those of one number. -/
theorem filter_flatMap_range (f : α → Nat) (l : List α) (n j : Nat) :
    ((List.range n).flatMap fun k => l.filter fun a => f a == k).filter (fun a => f a == j) =
      if j < n then l.filter fun a => f a == j else [] := by
  induction n with
  | zero => rfl
  | succ n ih =>
    rw [List.range_succ, List.flatMap_append, List.filter_append, ih, List.flatMap_singleton]
    by_cases hjn : j = n
    · rw [hjn, if_neg (Nat.lt_irrefl n), if_pos (Nat.lt_succ_self n), List.nil_append]
      exact filter_number_eq_self fun _ => number_of_mem_filter
    · -- no element has two numbers
      have hnone : ((l.filter fun a => f a == n).filter fun a => f a == j) = [] := by
        apply filter_number_eq_nil
        intro a ha
        rw [number_of_mem_filter ha]
        exact Ne.symm hjn
      rw [hnone, List.append_nil]
      simp only [show j < n ↔ j < n + 1 from by omega]

/-- Sorting by a number that stays below a bound: the elements of each number, one number after the other. -/
theorem mergeSort_by_number (f : α → Nat) (n : Nat) (l : List α) (h : ∀ a ∈ l, f a < n) :
    l.mergeSort (fun a b => decide (f a ≤ f b)) =
      (List.range n).flatMap fun k => l.filter fun a => f a == k := by
  have hle := isPreorder_of_number f
  apply eq_of_sorted_of_groups hle
  · exact List.pairwise_mergeSort hle.trans hle.total l
  · rw [List.pairwise_flatMap]
    refine ⟨?_, ?_⟩
    · -- within one number every element may stand before every other
      intro k _
      apply List.pairwise_of_forall_mem_list
      intro a ha b hb
      rw [number_of_mem_filter ha, number_of_mem_filter hb]
      exact decide_eq_true (Nat.le_refl k)
    · -- across two numbers the smaller one stands in front
      apply List.pairwise_lt_range.imp
      intro j k hjk a ha b hb
      rw [number_of_mem_filter ha, number_of_mem_filter hb]
      exact decide_eq_true (Nat.le_of_lt hjk)
  · intro a
    have hgroup : (fun b => decide (f a ≤ f b) && decide (f b ≤ f a)) = fun b => f b == f a := by
      funext b
      rw [Bool.eq_iff_iff]
      simp only [Bool.and_eq_true, decide_eq_true_eq, beq_iff_eq]
      omega
    rw [hgroup, filter_flatMap_range, filter_mergeSort_of_alike hle _ (by grind)]
    split
    · rfl
    · next hn =>
      -- a number that is not below the bound has no elements
      apply filter_number_eq_nil
      intro b hb
      have := h b hb
      omega

/-- Lists that agree place by place do so when they are sorted, if the two orders agree. -/
theorem forall₂_mergeSort {β : Type} {R : α → β → Prop} {le : α → α → Bool} {le' : β → β → Bool}
    {l : List α} {m : List β} (h : List.Forall₂ R l m)
    (hle : ∀ a b a' b', R a b → R a' b' → le a a' = le' b b') :
    List.Forall₂ R (l.mergeSort le) (m.mergeSort le') := by
  obtain ⟨hlength, hzip⟩ := List.forall₂_iff_zip.1 h
  have hpair : ∀ x ∈ l.zip m, R x.1 x.2 := fun x hx => hzip hx
  -- the pairs can be sorted by either side, and the sides of the sorted pairs are the sorted lists
  have hfirst : ((l.zip m).mergeSort fun x y => le x.1 y.1).map Prod.fst = l.mergeSort le := by
    rw [List.map_mergeSort (s := le) fun _ _ _ _ => rfl, List.map_fst_zip (Nat.le_of_eq hlength)]
  have hsecond : ((l.zip m).mergeSort fun x y => le x.1 y.1).map Prod.snd = m.mergeSort le' := by
    rw [List.map_mergeSort (s := le') fun x hx y hy => hle _ _ _ _ (hpair x hx) (hpair y hy),
      List.map_snd_zip (Nat.le_of_eq hlength.symm)]
  rw [← hfirst, ← hsecond, List.forall₂_map_left_iff, List.forall₂_map_right_iff, List.forall₂_same]
  intro x hx
  exact hpair x (List.mem_mergeSort.1 hx)

end Melody.StableSort
