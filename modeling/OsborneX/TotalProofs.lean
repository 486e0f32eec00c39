import Mathlib

/-! # Totals — what the items of a list that meet a condition add up to

    A total only grows with the list, whatever the order of its items
    (`total_subperm`); and the totals under each of some keys make up the total
    under all of them (`sum_total`). -/

namespace Totals

variable {T U : Type} {cond cond' : T → Bool} {f : T → Nat}

/-- The sum over the items that meet the condition. -/
def total (cond : T → Bool) (f : T → Nat) (items : List T) : Nat :=
  ((items.filter cond).map f).sum

@[simp] theorem total_nil (cond : T → Bool) (f : T → Nat) :
    total cond f [] = 0 := rfl

theorem total_cons (cond : T → Bool) (f : T → Nat) (item : T)
    (items : List T) :
    total cond f (item :: items)
      = (if cond item then f item else 0) + total cond f items := by
  by_cases h : cond item = true
  · simp [total, h]
  · simp [total, h]

@[simp] theorem total_append (cond : T → Bool) (f : T → Nat)
    (items later : List T) :
    total cond f (items ++ later)
      = total cond f items + total cond f later := by
  rw [total, List.filter_append, List.map_append, List.sum_append]
  rfl

theorem total_map (cond : T → Bool) (f : T → Nat) (g : U → T)
    (items : List U) :
    total cond f (items.map g)
      = total (fun item => cond (g item)) (fun item => f (g item)) items := by
  rw [total, List.filter_map, List.map_map]
  rfl

theorem total_filter (cond p : T → Bool) (f : T → Nat) (items : List T) :
    total cond f (items.filter p)
      = total (fun item => p item && cond item) f items := by
  rw [total, List.filter_filter, total]
  simp only [Bool.and_comm]

theorem total_perm {items items' : List T} (h : items.Perm items') :
    total cond f items = total cond f items' :=
  ((h.filter cond).map f).sum_eq

theorem total_eq_zero {items : List T}
    (h : ∀ item ∈ items, cond item = false) : total cond f items = 0 := by
  rw [total, List.filter_eq_nil_iff.mpr]
  · rfl
  · intro item hitem
    rw [h item hitem]
    exact Bool.false_ne_true

theorem total_congr {items : List T}
    (h : ∀ item ∈ items, cond item = cond' item) :
    total cond f items = total cond' f items := by
  rw [total, List.filter_congr h]
  rfl

/-- A weaker condition, a larger total. -/
theorem total_mono {items : List T}
    (h : ∀ item ∈ items, cond item = true → cond' item = true) :
    total cond f items ≤ total cond' f items := by
  induction items with
  | nil => exact Nat.le_refl _
  | cons item items ih =>
      rw [total_cons, total_cons]
      refine Nat.add_le_add ?_ (ih (fun i hi => h i (List.mem_cons_of_mem _ hi)))
      by_cases hcond : cond item = true
      · rw [if_pos hcond, if_pos (h item List.mem_cons_self hcond)]
      · rw [if_neg hcond]
        exact Nat.zero_le _

theorem total_sublist {items items' : List T} (h : items.Sublist items') :
    total cond f items ≤ total cond f items' := by
  induction h with
  | slnil => exact Nat.le_refl _
  | cons item _ ih =>
      rw [total_cons]
      omega
  | cons_cons item _ ih =>
      rw [total_cons, total_cons]
      omega

/-- **FEWER ITEMS, IN ANY ORDER**, a smaller total. -/
theorem total_subperm {items items' : List T} (h : items.Subperm items') :
    total cond f items ≤ total cond f items' := by
  obtain ⟨found, hperm, hsub⟩ := h
  rw [← total_perm hperm]
  exact total_sublist hsub

/-- **KEY BY KEY**: the totals of the keys are that of all of them. -/
theorem sum_total {K : Type} [DecidableEq K] (key : T → K) (keys : Finset K)
    (items : List T) :
    ∑ k ∈ keys, total (fun item => key item = k && cond item) f items
      = total (fun item => key item ∈ keys && cond item) f items := by
  induction items with
  | nil => exact Finset.sum_const_zero
  | cons item items ih =>
      have hstep : ∀ k ∈ keys,
          total (fun item => key item = k && cond item) f (item :: items)
            = (if k = key item then if cond item then f item else 0 else 0)
              + total (fun item => key item = k && cond item) f items := by
        intro k _
        rw [total_cons]
        by_cases hk : key item = k
        · simp [hk]
        · simp [hk, Ne.symm hk]
      rw [Finset.sum_congr rfl hstep, Finset.sum_add_distrib, ih,
        Finset.sum_ite_eq', total_cons]
      by_cases hk : key item ∈ keys
      · simp [hk]
      · simp [hk]

end Totals
