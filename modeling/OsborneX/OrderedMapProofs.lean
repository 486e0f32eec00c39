import Mathlib

/-! # Ordered maps — the entries of a search tree, read from its first key

    A map ordered by a transitive comparison `lt` is the list of its entries in
    `lt` order, and carries the proof of that order.  Two keys are EQUIVALENT
    when neither precedes the other; a lookup finds the first entry that does
    not precede the key (its lower bound) and answers with it when the key does
    not precede it either.

    Only transitivity is asked of `lt`, so the definitions also make sense for
    a comparison under which some value is equivalent to every other one.  The
    second half assumes a strict total order and gives every operation as
    surgery on ONE decomposition `entries = before ++ (k, v) :: after`. -/

/-- A map kept in the order of its comparison. -/
structure OrderedMap (κ β : Type) (lt : κ → κ → Prop) where
  entries : List (κ × β)
  sorted : entries.Pairwise (fun a b => lt a.1 b.1)

namespace OrderedMap

variable {κ β : Type} {lt : κ → κ → Prop}

/-- The map with no entry. -/
def empty : OrderedMap κ β lt := ⟨[], List.Pairwise.nil⟩

/-- No entry at all. -/
def isEmpty (m : OrderedMap κ β lt) : Bool := m.entries.isEmpty

/-- The first entry in key order. -/
def begin? (m : OrderedMap κ β lt) : Option (κ × β) := m.entries.head?

/-- The last entry in key order. -/
def rbegin? (m : OrderedMap κ β lt) : Option (κ × β) := m.entries.getLast?

/-- Search for the lower bound of `k`, accepted when `k` does not precede
    it. -/
def findIn (lt : κ → κ → Prop) [DecidableRel lt] (k : κ) : List (κ × β) → Option β
  | [] => none
  | (k', v) :: rest =>
      if lt k' k then findIn lt k rest
      else if lt k k' then none
      else some v

/-- The value stored at `k`. -/
def find? [DecidableRel lt] (m : OrderedMap κ β lt) (k : κ) : Option β :=
  findIn lt k m.entries

/-- Store `f` of the old value at the lower bound of `k`, opening a new entry
    when no equivalent key is there. -/
def upsertIn (lt : κ → κ → Prop) [DecidableRel lt] (k : κ)
    (f : Option β → β) : List (κ × β) → List (κ × β)
  | [] => [(k, f none)]
  | (k', v) :: rest =>
      if lt k' k then (k', v) :: upsertIn lt k f rest
      else if lt k k' then (k, f none) :: (k', v) :: rest
      else (k', f (some v)) :: rest

/-- Overwrite the value at the lower bound of `k`, when it is equivalent. -/
def adjustIn (lt : κ → κ → Prop) [DecidableRel lt] (k : κ) (f : β → β) :
    List (κ × β) → List (κ × β)
  | [] => []
  | (k', v) :: rest =>
      if lt k' k then (k', v) :: adjustIn lt k f rest
      else if lt k k' then (k', v) :: rest
      else (k', f v) :: rest

/-- A key of the updated list is `k` or an old key. -/
theorem mem_upsertIn [DecidableRel lt] {k : κ} {f : Option β → β}
    {l : List (κ × β)} {e : κ × β} (he : e ∈ upsertIn lt k f l) :
    e.1 = k ∨ ∃ e' ∈ l, e'.1 = e.1 := by
  induction l with
  | nil =>
      rcases List.mem_cons.mp he with heq | hmem
      · exact Or.inl (by rw [heq])
      · cases hmem
  | cons hd rest ih =>
      obtain ⟨k', v⟩ := hd
      simp only [upsertIn] at he
      by_cases h1 : lt k' k
      · rw [if_pos h1] at he
        rcases List.mem_cons.mp he with heq | hmem
        · exact Or.inr ⟨(k', v), by simp, by rw [heq]⟩
        · rcases ih hmem with hk | ⟨e', he', hek⟩
          · exact Or.inl hk
          · exact Or.inr ⟨e', List.mem_cons_of_mem _ he', hek⟩
      · rw [if_neg h1] at he
        by_cases h2 : lt k k'
        · rw [if_pos h2] at he
          rcases List.mem_cons.mp he with heq | hmem
          · exact Or.inl (by rw [heq])
          · exact Or.inr ⟨e, hmem, rfl⟩
        · rw [if_neg h2] at he
          rcases List.mem_cons.mp he with heq | hmem
          · exact Or.inr ⟨(k', v), by simp, by rw [heq]⟩
          · exact Or.inr ⟨e, List.mem_cons_of_mem _ hmem, rfl⟩

/-- Opening an entry at its lower bound keeps the order. -/
theorem sorted_upsertIn [DecidableRel lt] [IsTrans κ lt] (k : κ)
    (f : Option β → β) {l : List (κ × β)}
    (h : l.Pairwise (fun a b => lt a.1 b.1)) :
    (upsertIn lt k f l).Pairwise (fun a b => lt a.1 b.1) := by
  induction l with
  | nil => exact List.pairwise_singleton _ _
  | cons hd rest ih =>
      obtain ⟨k', v⟩ := hd
      obtain ⟨hhd, hrest⟩ := List.pairwise_cons.mp h
      simp only [upsertIn]
      by_cases h1 : lt k' k
      · rw [if_pos h1]
        refine List.pairwise_cons.mpr ⟨?_, ih hrest⟩
        intro e he
        rcases mem_upsertIn he with hk | ⟨e', he', hek⟩
        · rw [hk]; exact h1
        · rw [← hek]; exact hhd e' he'
      · rw [if_neg h1]
        by_cases h2 : lt k k'
        · rw [if_pos h2]
          refine List.pairwise_cons.mpr ⟨?_, h⟩
          intro e he
          rcases List.mem_cons.mp he with heq | hmem
          · rw [heq]; exact h2
          · exact IsTrans.trans _ _ _ h2 (hhd e hmem)
        · rw [if_neg h2]
          exact List.pairwise_cons.mpr ⟨hhd, hrest⟩

/-- Overwriting a value moves no key. -/
theorem map_fst_adjustIn [DecidableRel lt] (k : κ) (f : β → β)
    (l : List (κ × β)) :
    (adjustIn lt k f l).map Prod.fst = l.map Prod.fst := by
  induction l with
  | nil => rfl
  | cons hd rest ih =>
      obtain ⟨k', v⟩ := hd
      simp only [adjustIn]
      by_cases h1 : lt k' k
      · rw [if_pos h1, List.map_cons, ih, List.map_cons]
      · rw [if_neg h1]
        by_cases h2 : lt k k'
        · rw [if_pos h2]
        · rw [if_neg h2]; rfl

/-- The order is an order of the keys alone. -/
theorem sorted_of_keys {l l' : List (κ × β)}
    (hk : l'.map Prod.fst = l.map Prod.fst)
    (h : l.Pairwise (fun a b => lt a.1 b.1)) :
    l'.Pairwise (fun a b => lt a.1 b.1) := by
  have h1 : (l.map Prod.fst).Pairwise lt := List.pairwise_map.mpr h
  rw [← hk] at h1
  exact List.pairwise_map.mp h1

/-- Read-modify-write at `k`, with default insertion. -/
def upsert [DecidableRel lt] [IsTrans κ lt] (m : OrderedMap κ β lt) (k : κ)
    (f : Option β → β) : OrderedMap κ β lt :=
  ⟨upsertIn lt k f m.entries, sorted_upsertIn k f m.sorted⟩

/-- Write through a reference to the value at `k`. -/
def adjust [DecidableRel lt] (m : OrderedMap κ β lt) (k : κ) (f : β → β) :
    OrderedMap κ β lt :=
  ⟨adjustIn lt k f m.entries,
    sorted_of_keys (map_fst_adjustIn k f m.entries) m.sorted⟩

/-- Remove every entry whose key is equivalent to `k`. -/
def erase [DecidableRel lt] (m : OrderedMap κ β lt) (k : κ) :
    OrderedMap κ β lt :=
  ⟨m.entries.filter (fun e => decide (lt e.1 k ∨ lt k e.1)),
    m.sorted.filter _⟩

@[simp] theorem entries_empty :
    (empty : OrderedMap κ β lt).entries = [] := rfl

@[simp] theorem entries_upsert [DecidableRel lt] [IsTrans κ lt]
    (m : OrderedMap κ β lt) (k : κ) (f : Option β → β) :
    (m.upsert k f).entries = upsertIn lt k f m.entries := rfl

@[simp] theorem entries_adjust [DecidableRel lt] (m : OrderedMap κ β lt)
    (k : κ) (f : β → β) :
    (m.adjust k f).entries = adjustIn lt k f m.entries := rfl

@[simp] theorem entries_erase [DecidableRel lt] (m : OrderedMap κ β lt)
    (k : κ) :
    (m.erase k).entries
      = m.entries.filter (fun e => decide (lt e.1 k ∨ lt k e.1)) := rfl

/-! ## What the entries are after an operation -/

/-- A value found is the value of an entry. -/
theorem findIn_mem [DecidableRel lt] {k : κ} {v : β} {l : List (κ × β)}
    (h : findIn lt k l = some v) : ∃ k', (k', v) ∈ l := by
  induction l with
  | nil => cases h
  | cons hd rest ih =>
      obtain ⟨k', w⟩ := hd
      rw [findIn] at h
      by_cases h1 : lt k' k
      · rw [if_pos h1] at h
        obtain ⟨k'', hk⟩ := ih h
        exact ⟨k'', List.mem_cons_of_mem _ hk⟩
      · rw [if_neg h1] at h
        by_cases h2 : lt k k'
        · rw [if_pos h2] at h
          cases h
        · rw [if_neg h2] at h
          cases h
          exact ⟨k', List.mem_cons_self⟩

/-- What holds of the entries holds after an update that keeps it. -/
theorem forall_upsertIn [DecidableRel lt] {Q : κ × β → Prop} {k : κ}
    {f : Option β → β} (hnew : Q (k, f none))
    (hold : ∀ k' v, Q (k', v) → Q (k', f (some v))) {l : List (κ × β)}
    (h : ∀ e ∈ l, Q e) : ∀ e ∈ upsertIn lt k f l, Q e := by
  induction l with
  | nil =>
      exact List.forall_mem_singleton.mpr hnew
  | cons hd rest ih =>
      obtain ⟨k', v⟩ := hd
      obtain ⟨hhd, hrest⟩ := List.forall_mem_cons.mp h
      rw [upsertIn]
      by_cases h1 : lt k' k
      · rw [if_pos h1]
        exact List.forall_mem_cons.mpr ⟨hhd, ih hrest⟩
      · rw [if_neg h1]
        by_cases h2 : lt k k'
        · rw [if_pos h2]
          exact List.forall_mem_cons.mpr ⟨hnew, h⟩
        · rw [if_neg h2]
          exact List.forall_mem_cons.mpr ⟨hold k' v hhd, hrest⟩

theorem forall_adjustIn [DecidableRel lt] {Q : κ × β → Prop} {k : κ}
    {f : β → β} (hold : ∀ k' v, Q (k', v) → Q (k', f v)) {l : List (κ × β)}
    (h : ∀ e ∈ l, Q e) : ∀ e ∈ adjustIn lt k f l, Q e := by
  induction l with
  | nil => exact h
  | cons hd rest ih =>
      obtain ⟨k', v⟩ := hd
      obtain ⟨hhd, hrest⟩ := List.forall_mem_cons.mp h
      rw [adjustIn]
      by_cases h1 : lt k' k
      · rw [if_pos h1]
        exact List.forall_mem_cons.mpr ⟨hhd, ih hrest⟩
      · rw [if_neg h1]
        by_cases h2 : lt k k'
        · rw [if_pos h2]
          exact h
        · rw [if_neg h2]
          exact List.forall_mem_cons.mpr ⟨hold k' v hhd, hrest⟩

/-! ## Under other keys

    A function on keys that keeps their comparisons commutes with every
    operation. -/

section Rekey

variable {κ' : Type} {lt' : κ' → κ' → Prop} [DecidableRel lt]
  [DecidableRel lt'] {g : κ → κ'} {k : κ} {l : List (κ × β)}

/-- `g` keeps the comparisons of `k` with the keys of `l`. -/
def Keeps (lt : κ → κ → Prop) (lt' : κ' → κ' → Prop) (g : κ → κ') (k : κ)
    (l : List (κ × β)) : Prop :=
  ∀ e ∈ l, (lt e.1 k ↔ lt' (g e.1) (g k)) ∧ (lt k e.1 ↔ lt' (g k) (g e.1))

theorem findIn_rekey (h : Keeps lt lt' g k l) :
    findIn lt' (g k) (l.map (Prod.map g id)) = findIn lt k l := by
  induction l with
  | nil => rfl
  | cons hd rest ih =>
      obtain ⟨h1, h2⟩ := h hd List.mem_cons_self
      have ih := ih (fun e he => h e (List.mem_cons_of_mem _ he))
      simp only [List.map_cons, Prod.map, findIn, ← h1, ← h2, ih, id]

theorem upsertIn_rekey (h : Keeps lt lt' g k l) (f : Option β → β) :
    upsertIn lt' (g k) f (l.map (Prod.map g id))
      = (upsertIn lt k f l).map (Prod.map g id) := by
  induction l with
  | nil => rfl
  | cons hd rest ih =>
      obtain ⟨h1, h2⟩ := h hd List.mem_cons_self
      have ih := ih (fun e he => h e (List.mem_cons_of_mem _ he))
      simp only [List.map_cons, Prod.map, upsertIn, ← h1, ← h2, ih, id]
      split_ifs <;> rfl

theorem adjustIn_rekey (h : Keeps lt lt' g k l) (f : β → β) :
    adjustIn lt' (g k) f (l.map (Prod.map g id))
      = (adjustIn lt k f l).map (Prod.map g id) := by
  induction l with
  | nil => rfl
  | cons hd rest ih =>
      obtain ⟨h1, h2⟩ := h hd List.mem_cons_self
      have ih := ih (fun e he => h e (List.mem_cons_of_mem _ he))
      simp only [List.map_cons, Prod.map, adjustIn, ← h1, ← h2, ih, id]
      split_ifs <;> rfl

theorem eraseIn_rekey (h : Keeps lt lt' g k l) :
    (l.map (Prod.map g id)).filter
        (fun e => decide (lt' e.1 (g k) ∨ lt' (g k) e.1))
      = (l.filter (fun e => decide (lt e.1 k ∨ lt k e.1))).map
          (Prod.map g id) := by
  rw [List.filter_map]
  congr 1
  refine List.filter_congr (fun e he => ?_)
  obtain ⟨h1, h2⟩ := h e he
  exact decide_eq_decide.mpr (or_congr h1.symm h2.symm)

end Rekey

/-! ## Surgery on a decomposition -/

section Decomposition

variable [DecidableRel lt] {k : κ} {before after : List (κ × β)}

/-- Every operation first walks past the keys that precede `k`. -/
theorem findIn_append (hb : ∀ e ∈ before, lt e.1 k) (l : List (κ × β)) :
    findIn lt k (before ++ l) = findIn lt k l := by
  induction before with
  | nil => rfl
  | cons hd rest ih =>
      rw [List.cons_append, findIn, if_pos (hb hd List.mem_cons_self)]
      exact ih (fun e he => hb e (List.mem_cons_of_mem _ he))

theorem upsertIn_append (hb : ∀ e ∈ before, lt e.1 k) (f : Option β → β)
    (l : List (κ × β)) :
    upsertIn lt k f (before ++ l)
      = before ++ upsertIn lt k f l := by
  induction before with
  | nil => rfl
  | cons hd rest ih =>
      rw [List.cons_append, upsertIn, if_pos (hb hd List.mem_cons_self),
        ih (fun e he => hb e (List.mem_cons_of_mem _ he))]
      rfl

theorem adjustIn_append (hb : ∀ e ∈ before, lt e.1 k) (f : β → β)
    (l : List (κ × β)) :
    adjustIn lt k f (before ++ l)
      = before ++ adjustIn lt k f l := by
  induction before with
  | nil => rfl
  | cons hd rest ih =>
      rw [List.cons_append, adjustIn, if_pos (hb hd List.mem_cons_self),
        ih (fun e he => hb e (List.mem_cons_of_mem _ he))]
      rfl

end Decomposition

/-- An entry of the map sits in a decomposition at its key. -/
theorem split_mem (m : OrderedMap κ β lt) {k : κ} {v : β}
    (h : (k, v) ∈ m.entries) :
    ∃ before after, m.entries = before ++ (k, v) :: after ∧
      (∀ e ∈ before, lt e.1 k) ∧ (∀ e ∈ after, lt k e.1) := by
  obtain ⟨before, after, heq⟩ := List.append_of_mem h
  have hs := m.sorted
  rw [heq] at hs
  obtain ⟨-, hcons, hcross⟩ := List.pairwise_append.mp hs
  refine ⟨before, after, heq, ?_, (List.pairwise_cons.mp hcons).1⟩
  intro e he
  exact hcross e he (k, v) List.mem_cons_self

section StrictTotal

variable [DecidableRel lt] [IsStrictTotalOrder κ lt]

/-- **ONE DECOMPOSITION**: around any key the entries split into those that
    precede it, at most one entry at the key itself, and those it precedes. -/
theorem split_at (m : OrderedMap κ β lt) (k : κ) :
    ∃ before after,
      (∀ e ∈ before, lt e.1 k) ∧ (∀ e ∈ after, lt k e.1) ∧
      ((m.find? k = none ∧ m.entries = before ++ after) ∨
        ∃ v, m.find? k = some v ∧ m.entries = before ++ (k, v) :: after) := by
  obtain ⟨l, hl⟩ := m
  show ∃ before after, (∀ e ∈ before, lt e.1 k) ∧ (∀ e ∈ after, lt k e.1) ∧
    ((findIn lt k l = none ∧ l = before ++ after) ∨
      ∃ v, findIn lt k l = some v ∧ l = before ++ (k, v) :: after)
  induction l with
  | nil => exact ⟨[], [], by simp, by simp, Or.inl ⟨rfl, rfl⟩⟩
  | cons hd rest ih =>
      obtain ⟨k', v⟩ := hd
      obtain ⟨hhd, hrest⟩ := List.pairwise_cons.mp hl
      by_cases h1 : lt k' k
      · obtain ⟨before, after, hb, ha, hcase⟩ := ih hrest
        refine ⟨(k', v) :: before, after, ?_, ha, ?_⟩
        · intro e he
          rcases List.mem_cons.mp he with heq | hmem
          · rw [heq]; exact h1
          · exact hb e hmem
        · rw [findIn, if_pos h1]
          rcases hcase with ⟨hnone, heq⟩ | ⟨w, hsome, heq⟩
          · exact Or.inl ⟨hnone, by rw [heq]; rfl⟩
          · exact Or.inr ⟨w, hsome, by rw [heq]; rfl⟩
      · by_cases h2 : lt k k'
        · refine ⟨[], (k', v) :: rest, by simp, ?_, Or.inl ⟨?_, rfl⟩⟩
          · intro e he
            rcases List.mem_cons.mp he with heq | hmem
            · rw [heq]; exact h2
            · exact IsTrans.trans _ _ _ h2 (hhd e hmem)
          · rw [findIn, if_neg h1, if_pos h2]
        · have hk : k' = k := by
            rcases trichotomous_of lt k' k with h | h | h
            · exact absurd h h1
            · exact h
            · exact absurd h h2
          subst hk
          exact ⟨[], rest, by simp, hhd, Or.inr ⟨v, by
            rw [findIn, if_neg h1, if_neg h2], rfl⟩⟩

variable {k : κ} {before after : List (κ × β)}

/-- The key of a decomposition is found. -/
theorem findIn_middle (hb : ∀ e ∈ before, lt e.1 k) (v : β) :
    findIn lt k (before ++ (k, v) :: after) = some v := by
  rw [findIn_append hb, findIn, if_neg (irrefl_of lt k),
    if_neg (irrefl_of lt k)]

theorem upsertIn_middle (hb : ∀ e ∈ before, lt e.1 k) (f : Option β → β)
    (v : β) :
    upsertIn lt k f (before ++ (k, v) :: after)
      = before ++ (k, f (some v)) :: after := by
  rw [upsertIn_append hb, upsertIn, if_neg (irrefl_of lt k),
    if_neg (irrefl_of lt k)]

theorem upsertIn_gap (hb : ∀ e ∈ before, lt e.1 k)
    (ha : ∀ e ∈ after, lt k e.1) (f : Option β → β) :
    upsertIn lt k f (before ++ after)
      = before ++ (k, f none) :: after := by
  rw [upsertIn_append hb]
  cases after with
  | nil => rfl
  | cons hd rest =>
      have h1 : lt k hd.1 := ha hd List.mem_cons_self
      rw [upsertIn, if_neg (asymm_of lt h1), if_pos h1]

theorem adjustIn_middle (hb : ∀ e ∈ before, lt e.1 k) (f : β → β) (v : β) :
    adjustIn lt k f (before ++ (k, v) :: after)
      = before ++ (k, f v) :: after := by
  rw [adjustIn_append hb, adjustIn, if_neg (irrefl_of lt k),
    if_neg (irrefl_of lt k)]

theorem erase_middle (hb : ∀ e ∈ before, lt e.1 k)
    (ha : ∀ e ∈ after, lt k e.1) (v : β) :
    (before ++ (k, v) :: after).filter
        (fun e => decide (lt e.1 k ∨ lt k e.1)) = before ++ after := by
  have h1 : before.filter (fun e => decide (lt e.1 k ∨ lt k e.1)) = before :=
    List.filter_eq_self.mpr (fun e he => by simp [hb e he])
  have h2 : after.filter (fun e => decide (lt e.1 k ∨ lt k e.1)) = after :=
    List.filter_eq_self.mpr (fun e he => by simp [ha e he])
  rw [List.filter_append, List.filter_cons, h1, h2]
  simp [irrefl_of lt k]

/-- Lookup is membership. -/
theorem find?_eq_some_iff (m : OrderedMap κ β lt) {v : β} :
    m.find? k = some v ↔ (k, v) ∈ m.entries := by
  constructor
  · intro h
    obtain ⟨before, after, -, -, hcase⟩ := m.split_at k
    rcases hcase with ⟨hnone, -⟩ | ⟨w, hsome, heq⟩
    · rw [hnone] at h
      cases h
    · rw [hsome] at h
      cases h
      rw [heq]
      simp
  · intro h
    obtain ⟨before, after, heq, hb, -⟩ := m.split_mem h
    rw [find?, heq]
    exact findIn_middle hb v

/-- A lookup after a store. -/
theorem find?_upsert [DecidableEq κ] (m : OrderedMap κ β lt) (k k' : κ)
    (f : Option β → β) :
    (m.upsert k f).find? k'
      = if k' = k then some (f (m.find? k)) else m.find? k' := by
  obtain ⟨before, after, hb, ha, hcase⟩ := m.split_at k
  have hentries : (m.upsert k f).entries
      = before ++ (k, f (m.find? k)) :: after := by
    rw [entries_upsert]
    rcases hcase with ⟨hnone, heq⟩ | ⟨v, hsome, heq⟩
    · rw [heq, hnone, upsertIn_gap hb ha]
    · rw [heq, hsome, upsertIn_middle hb]
  by_cases heq : k' = k
  · subst heq
    rw [if_pos rfl, find?, hentries]
    exact findIn_middle hb _
  · rw [if_neg heq]
    refine Option.ext (fun v => ?_)
    rw [find?_eq_some_iff, find?_eq_some_iff, hentries]
    have hne : (k', v) ≠ (k, f (m.find? k)) :=
      fun h => heq (congrArg Prod.fst h)
    rcases hcase with ⟨-, hold⟩ | ⟨w, -, hold⟩
    · rw [hold, List.mem_append, List.mem_append, List.mem_cons,
        or_iff_right hne]
    · have hne' : (k', v) ≠ (k, w) := fun h => heq (congrArg Prod.fst h)
      rw [hold, List.mem_append, List.mem_append, List.mem_cons,
        List.mem_cons, or_iff_right hne, or_iff_right hne']

end StrictTotal

end OrderedMap
