import Mathlib

/-! # Hash tables — association lists under a key equality

    A table with unique keys is the list of its entries, no two of which have
    EQUAL keys in the sense of the key type's own `==`.  The list order stands
    for an iteration order and no operation promises one: a new key goes to the
    back.

    `==` need not be lawful.  A key that is not equal to itself is never found,
    so every access by it opens another entry.  The lookup lemmas at the end
    are for lawful keys, where every operation is described by what `find?`
    answers afterwards. -/

/-- A table whose keys are pairwise unequal. -/
structure HashTable (κ β : Type) [BEq κ] where
  entries : List (κ × β)
  distinct : entries.Pairwise (fun a b => (a.1 == b.1) = false)

namespace HashTable

variable {κ β : Type} [BEq κ]

/-- The table with no entry. -/
def empty : HashTable κ β := ⟨[], List.Pairwise.nil⟩

/-- The value stored under a key equal to `k`. -/
def findIn (k : κ) : List (κ × β) → Option β
  | [] => none
  | (k', v) :: rest => if k' == k then some v else findIn k rest

/-- The value stored under `k`. -/
def find? (t : HashTable κ β) (k : κ) : Option β := findIn k t.entries

/-- Is there an entry under `k`? -/
def contains (t : HashTable κ β) (k : κ) : Bool := (t.find? k).isSome

/-- Overwrite the entry under `k`, or append one. -/
def upsertIn (k : κ) (f : Option β → β) : List (κ × β) → List (κ × β)
  | [] => [(k, f none)]
  | (k', v) :: rest =>
      if k' == k then (k', f (some v)) :: rest
      else (k', v) :: upsertIn k f rest

theorem mem_upsertIn {k : κ} {f : Option β → β} {l : List (κ × β)}
    {e : κ × β} (he : e ∈ upsertIn k f l) :
    e.1 = k ∨ ∃ e' ∈ l, e'.1 = e.1 := by
  induction l with
  | nil =>
      rcases List.mem_cons.mp he with heq | hmem
      · exact Or.inl (by rw [heq])
      · cases hmem
  | cons hd rest ih =>
      obtain ⟨k', v⟩ := hd
      simp only [upsertIn] at he
      by_cases h1 : (k' == k) = true
      · rw [if_pos h1] at he
        rcases List.mem_cons.mp he with heq | hmem
        · exact Or.inr ⟨(k', v), by simp, by rw [heq]⟩
        · exact Or.inr ⟨e, List.mem_cons_of_mem _ hmem, rfl⟩
      · rw [if_neg h1] at he
        rcases List.mem_cons.mp he with heq | hmem
        · exact Or.inr ⟨(k', v), by simp, by rw [heq]⟩
        · rcases ih hmem with hk | ⟨e', he', hek⟩
          · exact Or.inl hk
          · exact Or.inr ⟨e', List.mem_cons_of_mem _ he', hek⟩

/-- An appended key was equal to no key before it. -/
theorem distinct_upsertIn (k : κ) (f : Option β → β) {l : List (κ × β)}
    (h : l.Pairwise (fun a b => (a.1 == b.1) = false)) :
    (upsertIn k f l).Pairwise (fun a b => (a.1 == b.1) = false) := by
  induction l with
  | nil => exact List.pairwise_singleton _ _
  | cons hd rest ih =>
      obtain ⟨k', v⟩ := hd
      obtain ⟨hhd, hrest⟩ := List.pairwise_cons.mp h
      simp only [upsertIn]
      by_cases h1 : (k' == k) = true
      · rw [if_pos h1]
        exact List.pairwise_cons.mpr ⟨hhd, hrest⟩
      · rw [if_neg h1]
        refine List.pairwise_cons.mpr ⟨?_, ih hrest⟩
        intro e he
        rcases mem_upsertIn he with hk | ⟨e', he', hek⟩
        · rw [hk]; exact Bool.eq_false_iff.mpr h1
        · rw [← hek]; exact hhd e' he'

/-- Read-modify-write under `k`, with default insertion. -/
def upsert (t : HashTable κ β) (k : κ) (f : Option β → β) : HashTable κ β :=
  ⟨upsertIn k f t.entries, distinct_upsertIn k f t.distinct⟩

/-- Insert under `k` unless an entry is there. -/
def emplace (t : HashTable κ β) (k : κ) (v : β) : HashTable κ β :=
  t.upsert k (fun old => old.getD v)

/-- Remove the entry under `k`. -/
def erase (t : HashTable κ β) (k : κ) : HashTable κ β :=
  ⟨t.entries.filter (fun e => !(e.1 == k)), t.distinct.filter _⟩

@[simp] theorem entries_empty : (empty : HashTable κ β).entries = [] := rfl

@[simp] theorem find?_empty (k : κ) :
    (empty : HashTable κ β).find? k = none := rfl

/-- What holds of the entries holds after an update that keeps it. -/
theorem forall_upsertIn {Q : κ × β → Prop} {k : κ} {f : Option β → β}
    (hnew : Q (k, f none)) (hold : ∀ k' v, Q (k', v) → Q (k', f (some v)))
    {l : List (κ × β)} (h : ∀ e ∈ l, Q e) : ∀ e ∈ upsertIn k f l, Q e := by
  induction l with
  | nil =>
      exact List.forall_mem_singleton.mpr hnew
  | cons hd rest ih =>
      obtain ⟨k', v⟩ := hd
      obtain ⟨hhd, hrest⟩ := List.forall_mem_cons.mp h
      rw [upsertIn]
      by_cases h1 : (k' == k) = true
      · rw [if_pos h1]
        exact List.forall_mem_cons.mpr ⟨hold k' v hhd, hrest⟩
      · rw [if_neg h1]
        exact List.forall_mem_cons.mpr ⟨hhd, ih hrest⟩

/-- A sum over the values: the old total with the new value is the new total
    with the old one. -/
theorem sum_upsertIn {M : Type} [AddCommMonoid M] (g : β → M) (k : κ)
    (f : Option β → β) (l : List (κ × β)) :
    ((upsertIn k f l).map (fun e => g e.2)).sum
        + ((findIn k l).map g).getD 0
      = (l.map (fun e => g e.2)).sum + g (f (findIn k l)) := by
  induction l with
  | nil => simp [upsertIn, findIn]
  | cons hd rest ih =>
      obtain ⟨k', v⟩ := hd
      by_cases h1 : (k' == k) = true
      · simp only [upsertIn, findIn, if_pos h1, List.map_cons, List.sum_cons,
          Option.map_some, Option.getD_some]
        abel
      · simp only [upsertIn, findIn, if_neg h1, List.map_cons, List.sum_cons]
        rw [add_assoc, ih, add_assoc]

/-! ## Under other keys

    A function on keys that keeps their equalities commutes with every
    operation. -/

section Rekey

variable {κ' : Type} [BEq κ'] {g : κ → κ'} {k : κ} {l : List (κ × β)}

/-- `g` keeps the comparisons of `k` with the keys of `l`. -/
def Keeps (g : κ → κ') (k : κ) (l : List (κ × β)) : Prop :=
  ∀ e ∈ l, (g e.1 == g k) = (e.1 == k)

theorem findIn_rekey (h : Keeps g k l) :
    findIn (g k) (l.map (Prod.map g id)) = findIn k l := by
  induction l with
  | nil => rfl
  | cons hd rest ih =>
      have h1 := h hd List.mem_cons_self
      have ih := ih (fun e he => h e (List.mem_cons_of_mem _ he))
      simp only [List.map_cons, Prod.map, findIn, h1, ih, id]

theorem upsertIn_rekey (h : Keeps g k l) (f : Option β → β) :
    upsertIn (g k) f (l.map (Prod.map g id))
      = (upsertIn k f l).map (Prod.map g id) := by
  induction l with
  | nil => rfl
  | cons hd rest ih =>
      have h1 := h hd List.mem_cons_self
      have ih := ih (fun e he => h e (List.mem_cons_of_mem _ he))
      simp only [List.map_cons, Prod.map, upsertIn, h1, ih, id]
      split_ifs <;> rfl

theorem eraseIn_rekey (h : Keeps g k l) :
    (l.map (Prod.map g id)).filter (fun e => !(e.1 == g k))
      = (l.filter (fun e => !(e.1 == k))).map (Prod.map g id) := by
  rw [List.filter_map]
  congr 1
  refine List.filter_congr (fun e he => ?_)
  exact congrArg (!·) (h e he)

end Rekey

/-! ## Lookups after an operation, for lawful keys -/

section Lawful

variable [LawfulBEq κ]

theorem nodup_keys (t : HashTable κ β) : (t.entries.map Prod.fst).Nodup :=
  List.pairwise_map.mpr (t.distinct.imp fun h => by simpa using h)

variable [DecidableEq κ]

theorem findIn_upsertIn (l : List (κ × β)) (k k' : κ) (f : Option β → β) :
    findIn k' (upsertIn k f l)
      = if k' = k then some (f (findIn k l)) else findIn k' l := by
  induction l with
  | nil =>
      by_cases h : k' = k
      · subst h
        simp [upsertIn, findIn]
      · have hne : (k == k') = false :=
          beq_eq_false_iff_ne.mpr (fun e => h e.symm)
        simp [upsertIn, findIn, h, hne]
  | cons hd rest ih =>
      obtain ⟨k₀, v⟩ := hd
      by_cases h0 : k₀ = k
      · subst h0
        by_cases h : k' = k₀
        · subst h
          simp [upsertIn, findIn]
        · have hne : (k₀ == k') = false :=
            beq_eq_false_iff_ne.mpr (fun e => h e.symm)
          simp [upsertIn, findIn, h, hne]
      · have hne : (k₀ == k) = false := beq_eq_false_iff_ne.mpr h0
        simp only [upsertIn, findIn, hne, Bool.false_eq_true, if_false, ih]
        by_cases h : k' = k
        · subst h
          simp [hne]
        · simp [h]

theorem find?_upsert (t : HashTable κ β) (k k' : κ) (f : Option β → β) :
    (t.upsert k f).find? k'
      = if k' = k then some (f (t.find? k)) else t.find? k' :=
  findIn_upsertIn t.entries k k' f

omit [DecidableEq κ] in
theorem upsertIn_upsertIn (l : List (κ × β)) (k : κ) (f g : Option β → β) :
    upsertIn k g (upsertIn k f l)
      = upsertIn k (fun old => g (some (f old))) l := by
  induction l with
  | nil => simp [upsertIn]
  | cons hd rest ih =>
      obtain ⟨k₀, v⟩ := hd
      by_cases h0 : (k₀ == k) = true
      · simp [upsertIn, h0]
      · simp [upsertIn, h0, ih]

omit [DecidableEq κ] in
/-- Two updates under one key are one. -/
theorem upsert_upsert (t : HashTable κ β) (k : κ) (f g : Option β → β) :
    (t.upsert k f).upsert k g
      = t.upsert k (fun old => g (some (f old))) := by
  simp only [upsert, upsertIn_upsertIn]

theorem find?_emplace (t : HashTable κ β) (k k' : κ) (v : β)
    (h : t.find? k = none) :
    (t.emplace k v).find? k' = if k' = k then some v else t.find? k' := by
  rw [emplace, find?_upsert, h]
  rfl

theorem findIn_filter_ne (l : List (κ × β)) (k k' : κ) :
    findIn k' (l.filter (fun e => !(e.1 == k)))
      = if k' = k then none else findIn k' l := by
  induction l with
  | nil => simp [findIn]
  | cons hd rest ih =>
      obtain ⟨k₀, v⟩ := hd
      by_cases h0 : k₀ = k
      · subst h0
        rw [List.filter_cons, if_neg (by simp), ih]
        by_cases h : k' = k₀
        · rw [if_pos h, if_pos h]
        · have hne : (k₀ == k') = false :=
            beq_eq_false_iff_ne.mpr (fun e => h e.symm)
          simp [findIn, h, hne]
      · rw [List.filter_cons, if_pos (by simp [h0])]
        simp only [findIn, ih]
        by_cases h : k' = k
        · subst h
          simp [beq_eq_false_iff_ne.mpr h0]
        · simp [h]

theorem find?_erase (t : HashTable κ β) (k k' : κ) :
    (t.erase k).find? k' = if k' = k then none else t.find? k' :=
  findIn_filter_ne t.entries k k'

/-- An erased key is found no more, the others as before. -/
theorem find?_of_erase {t : HashTable κ β} {k k' : κ} {v : β}
    (h : (t.erase k).find? k' = some v) : t.find? k' = some v := by
  rw [find?_erase] at h
  by_cases hk : k' = k
  · rw [if_pos hk] at h
    cases h
  · rw [if_neg hk] at h
    exact h

theorem find?_of_eraseIf {t : HashTable κ β} {c : Bool} {k k' : κ} {v : β}
    (h : (if c then t.erase k else t).find? k' = some v) :
    t.find? k' = some v := by
  by_cases hc : c = true
  · rw [if_pos hc] at h
    exact find?_of_erase h
  · rw [if_neg hc] at h
    exact h

/-- Lookup is membership. -/
theorem find?_eq_some_iff (t : HashTable κ β) (k : κ) (v : β) :
    t.find? k = some v ↔ (k, v) ∈ t.entries := by
  obtain ⟨l, hl⟩ := t
  show findIn k l = some v ↔ (k, v) ∈ l
  induction l with
  | nil => simp [findIn]
  | cons hd rest ih =>
      obtain ⟨k₀, w⟩ := hd
      obtain ⟨hhd, hrest⟩ := List.pairwise_cons.mp hl
      by_cases h0 : k₀ = k
      · subst h0
        have hno : (k₀, v) ∉ rest := by
          intro hmem
          have hne : (k₀ == k₀) = false := hhd _ hmem
          simp at hne
        simp [findIn, hno, eq_comm]
      · have hne : (k₀ == k) = false := beq_eq_false_iff_ne.mpr h0
        have h0' : k ≠ k₀ := fun e => h0 e.symm
        simp [findIn, hne, ih hrest, h0']

/-- Two tables that answer alike under a renaming of the keys hold the same
    entries, renamed. -/
theorem perm_of_find? {κ' : Type} [BEq κ'] [LawfulBEq κ']
    [DecidableEq κ'] {g : κ → κ'}
    (hinj : Function.Injective g) (honto : Function.Surjective g)
    {t : HashTable κ β} {t' : HashTable κ' β}
    (h : ∀ k, t'.find? (g k) = t.find? k) :
    t'.entries.Perm (t.entries.map (Prod.map g id)) := by
  have hnodup : (t.entries.map (Prod.map g id)).Nodup := by
    refine List.Nodup.map (hinj.prodMap Function.injective_id) ?_
    exact t.nodup_keys.of_map _
  refine (List.perm_ext_iff_of_nodup (t'.nodup_keys.of_map _) hnodup).mpr ?_
  rintro ⟨k', v⟩
  obtain ⟨k, rfl⟩ := honto k'
  rw [← find?_eq_some_iff, h k, find?_eq_some_iff, List.mem_map]
  constructor
  · exact fun hmem => ⟨(k, v), hmem, rfl⟩
  · rintro ⟨⟨k₁, v₁⟩, hmem, heq⟩
    obtain ⟨hk, rfl⟩ := Prod.mk.inj heq
    rw [← hinj hk]
    exact hmem

end Lawful

end HashTable
