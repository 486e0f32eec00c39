import OsborneX.ListenerModel

/-! # Reaping — what the order of disconnecting decides

    Nothing is joined before the vector is compacted.  So a live connection
    that stands after a finished one is assigned onto a thread that is still
    joinable, and the process ends (`reap_disordered`); without such a
    connection nothing is moved and the tail is joined (`reap_ordered`). -/

namespace OsxListener

variable {flags : FlagId → Bool}

/-! ## The search -/

theorem isFinished_connection (a : Accepted) :
    a.connection.isFinished flags = .ok (flags a.finished) := rfl

/-- The search passes over live connections. -/
theorem findFinished_live {live rest : List Accepted}
    (hlive : ∀ a ∈ live, flags a.finished = false) (index : Nat) :
    findFinished flags ((live ++ rest).map Accepted.connection) index
      = findFinished flags (rest.map Accepted.connection)
        (index + live.length) := by
  induction live generalizing index with
  | nil => rfl
  | cons a live ih =>
      have hhead := hlive a List.mem_cons_self
      have htail := ih (fun b hb => hlive b (List.mem_cons_of_mem a hb))
        (index + 1)
      rw [List.cons_append, List.map_cons, findFinished,
        isFinished_connection, hhead, List.length_cons]
      refine htail.trans ?_
      rw [Nat.add_right_comm, Nat.add_assoc]

theorem findFinished_found {a : Accepted} {rest : List Accepted} (index : Nat)
    (h : flags a.finished = true) :
    findFinished flags ((a :: rest).map Accepted.connection) index
      = .ok index := by
  rw [List.map_cons, findFinished, isFinished_connection, h]
  rfl

/-! ## The loop -/

/-- Finished connections are passed over, and nothing is moved. -/
theorem compact_finished {connections : List Connection} {dest : Nat}
    {indices later : List Nat}
    (h : ∀ i ∈ indices, ∃ c, connections[i]? = some c ∧
      c.isFinished flags = .ok true) :
    compact flags connections dest (indices ++ later)
      = compact flags connections dest later := by
  induction indices with
  | nil => rfl
  | cons i indices ih =>
      obtain ⟨c, hget, hfinished⟩ := h i List.mem_cons_self
      have htail := ih (fun j hj => h j (List.mem_cons_of_mem i hj))
      rw [List.cons_append, compact, hget]
      dsimp only
      rw [hfinished]
      exact htail

/-- The first live one after them is assigned onto a joinable thread. -/
theorem compact_live {connections : List Connection} {dest i : Nat}
    {later : List Nat} {old c : Connection}
    (hold : connections[dest]? = some old) (hjoinable : old.joinable = true)
    (hget : connections[i]? = some c)
    (hlive : c.isFinished flags = .ok false) :
    compact flags connections dest (i :: later) = .error .terminate := by
  rw [compact, hget]
  dsimp only
  rw [hlive]
  show (moveAssign connections dest i >>= _) = _
  rw [moveAssign, hold, hget]
  dsimp only
  rw [if_pos hjoinable]
  rfl

/-! ## The two orders -/

/-- Joining the threads of connections nobody has joined. -/
theorem joinEach_accepted (done : List Accepted) :
    joinEach (done.map Accepted.connection)
      = (done.map (fun a => ⟨none, some a.finished⟩),
        done.map Accepted.thread) := by
  induction done with
  | nil => rfl
  | cons a done ih =>
      rw [List.map_cons, joinEach, ih]
      rfl

/-- What stands after the first finished connection. -/
theorem getElem?_after (live : List Accepted) (a : Accepted)
    (rest : List Accepted) (k : Nat) :
    ((live ++ a :: rest).map Accepted.connection)[live.length + 1 + k]?
      = rest[k]?.map Accepted.connection := by
  rw [List.getElem?_map, List.getElem?_append_right (by omega)]
  have hindex : live.length + 1 + k - live.length = k + 1 := by omega
  rw [hindex, List.getElem?_cons_succ]

/-- The loop passes over finished connections that come next. -/
theorem compact_done {live done rest : List Accepted} {a : Accepted}
    {dest : Nat} {later : List Nat}
    (hdone : ∀ a ∈ done, flags a.finished = true) :
    compact flags ((live ++ a :: (done ++ rest)).map Accepted.connection) dest
        (List.range' (live.length + 1) done.length ++ later)
      = compact flags ((live ++ a :: (done ++ rest)).map Accepted.connection)
        dest later := by
  refine compact_finished (fun i hi => ?_)
  obtain ⟨hge, hlt⟩ := List.mem_range'_1.mp hi
  obtain ⟨k, rfl⟩ := Nat.exists_eq_add_of_le hge
  have hk : k < done.length := by omega
  refine ⟨done[k].connection, ?_, ?_⟩
  · rw [getElem?_after, List.getElem?_append_left hk,
      List.getElem?_eq_getElem hk]
    rfl
  · rw [isFinished_connection, hdone _ (List.getElem_mem hk)]

/-- The finished connections stand last: they are joined, the others stay. -/
theorem reap_ordered {live done : List Accepted}
    (hlive : ∀ a ∈ live, flags a.finished = false)
    (hdone : ∀ a ∈ done, flags a.finished = true) :
    reapFinishedConnections flags ((live ++ done).map Accepted.connection)
      = .ok (live.map Accepted.connection, done.map Accepted.thread) := by
  have hremove : removeIf flags ((live ++ done).map Accepted.connection)
      = .ok ((live ++ done).map Accepted.connection, live.length) := by
    rw [removeIf, findFinished_live hlive, Nat.zero_add]
    cases done with
    | nil =>
        show compact flags _ live.length (List.range' _ _) = _
        rw [List.append_nil, List.length_map,
          Nat.sub_eq_zero_of_le (Nat.le_succ _)]
        rfl
    | cons a done =>
        rw [findFinished_found _ (hdone a List.mem_cons_self)]
        show compact flags _ live.length (List.range' _ _) = _
        have hlength : ((live ++ a :: done).map Accepted.connection).length
            - (live.length + 1) = done.length := by
          rw [List.length_map, List.length_append, List.length_cons]
          omega
        have hpass : compact flags
            ((live ++ a :: (done ++ [])).map Accepted.connection) live.length
            (List.range' (live.length + 1) done.length ++ [])
            = compact flags
              ((live ++ a :: (done ++ [])).map Accepted.connection)
              live.length [] :=
          compact_done (fun b hb => hdone b (List.mem_cons_of_mem a hb))
        rw [List.append_nil, List.append_nil] at hpass
        rw [hlength, hpass]
        rfl
  have htail : ((live ++ done).map Accepted.connection).drop live.length
      = done.map Accepted.connection := by
    rw [List.map_append, List.drop_left' (List.length_map _)]
  have hkept : ((live ++ done).map Accepted.connection).take live.length
      = live.map Accepted.connection := by
    rw [List.map_append, List.take_left' (List.length_map _)]
  have hjoined : (done.map
      (fun a => (⟨none, some a.finished⟩ : Connection))).any
        Connection.joinable = false := by
    rw [List.any_map, List.any_eq_false]
    exact fun _ _ => Bool.false_ne_true
  rw [reapFinishedConnections, hremove]
  show (eraseTail (List.take _ _) (joinEach (List.drop _ _)).1 >>= _) = _
  rw [htail, hkept, joinEach_accepted, eraseTail, hjoined]
  rfl

/-- A live connection stands after a finished one. -/
theorem reap_disordered {live done rest : List Accepted} {a b : Accepted}
    (hlive : ∀ a ∈ live, flags a.finished = false)
    (ha : flags a.finished = true)
    (hdone : ∀ a ∈ done, flags a.finished = true)
    (hb : flags b.finished = false) :
    reapFinishedConnections flags
      ((live ++ a :: (done ++ b :: rest)).map Accepted.connection)
      = .error .terminate := by
  have hremove : removeIf flags
      ((live ++ a :: (done ++ b :: rest)).map Accepted.connection)
      = .error .terminate := by
    rw [removeIf, findFinished_live hlive, Nat.zero_add,
      findFinished_found _ ha]
    show compact flags _ live.length (List.range' _ _) = _
    have hlength : ((live ++ a :: (done ++ b :: rest)).map
        Accepted.connection).length - (live.length + 1)
        = done.length + (rest.length + 1) := by
      simp only [List.length_map, List.length_append, List.length_cons]
      omega
    rw [hlength, ← List.range'_append_1, compact_done hdone,
      List.range'_succ]
    have hdest : ((live ++ a :: (done ++ b :: rest)).map
        Accepted.connection)[live.length]? = some a.connection := by
      rw [List.getElem?_map, List.getElem?_append_right (Nat.le_refl _),
        Nat.sub_self]
      rfl
    have hnext : ((live ++ a :: (done ++ b :: rest)).map
        Accepted.connection)[live.length + 1 + done.length]?
        = some b.connection := by
      rw [getElem?_after, List.getElem?_append_right (Nat.le_refl _),
        Nat.sub_self]
      rfl
    refine compact_live hdest rfl hnext ?_
    rw [isFinished_connection, hb]
  rw [reapFinishedConnections, hremove]
  rfl

/-! ## Reaping -/

/-- The finished connections before the first live one, or to the end. -/
theorem split_finished (flags : FlagId → Bool) (rest : List Accepted) :
    (∀ a ∈ rest, flags a.finished = true) ∨
    ∃ done b later, rest = done ++ b :: later ∧
      (∀ a ∈ done, flags a.finished = true) ∧ flags b.finished = false := by
  induction rest with
  | nil => exact Or.inl (fun _ hmem => absurd hmem List.not_mem_nil)
  | cons a rest ih =>
      cases ha : flags a.finished with
      | false =>
          exact Or.inr ⟨[], a, rest, rfl,
            fun _ hmem => absurd hmem List.not_mem_nil, ha⟩
      | true =>
          obtain hall | ⟨done, b, later, rfl, hdone, hb⟩ := ih
          · exact Or.inl (List.forall_mem_cons.mpr ⟨ha, hall⟩)
          · exact Or.inr ⟨a :: done, b, later, rfl,
              List.forall_mem_cons.mpr ⟨ha, hdone⟩, hb⟩

/-- The live connections before the first finished one, or to the end. -/
theorem split_live (flags : FlagId → Bool) (accepted : List Accepted) :
    ∃ live rest, accepted = live ++ rest ∧
      (∀ a ∈ live, flags a.finished = false) ∧
      (rest = [] ∨ ∃ a later, rest = a :: later ∧ flags a.finished = true) := by
  induction accepted with
  | nil => exact ⟨[], [], rfl, fun _ hmem => absurd hmem List.not_mem_nil,
      Or.inl rfl⟩
  | cons a accepted ih =>
      cases ha : flags a.finished with
      | true =>
          exact ⟨[], a :: accepted, rfl,
            fun _ hmem => absurd hmem List.not_mem_nil,
            Or.inr ⟨a, accepted, rfl, ha⟩⟩
      | false =>
          obtain ⟨live, rest, rfl, hlive, hrest⟩ := ih
          exact ⟨a :: live, rest, rfl, List.forall_mem_cons.mpr ⟨ha, hlive⟩,
            hrest⟩

/-- The connections of a vector, cut: the finished ones are last, or one of
    them stands before a live one. -/
theorem split_cases (flags : FlagId → Bool) (accepted : List Accepted) :
    (∃ live done, accepted = live ++ done ∧
      (∀ a ∈ live, flags a.finished = false) ∧
      ∀ a ∈ done, flags a.finished = true) ∨
    ∃ live a done b later, accepted = live ++ a :: (done ++ b :: later) ∧
      (∀ c ∈ live, flags c.finished = false) ∧ flags a.finished = true ∧
      (∀ c ∈ done, flags c.finished = true) ∧ flags b.finished = false := by
  obtain ⟨live, rest, rfl, hlive, hrest⟩ := split_live flags accepted
  obtain hdone | ⟨done, b, later, rfl, hdone, hb⟩ :=
    split_finished flags rest
  · exact Or.inl ⟨live, rest, rfl, hlive, hdone⟩
  · -- the first element of the rest is finished, so `done` is not empty
    obtain hnil | ⟨a, later', heq, ha⟩ := hrest
    · exact absurd hnil (by simp)
    · cases done with
      | nil =>
          obtain ⟨rfl, -⟩ := List.cons.inj heq
          rw [hb] at ha
          cases ha
      | cons a' done =>
          obtain ⟨rfl, -⟩ := List.cons.inj heq
          exact Or.inr ⟨live, a', done, b, later, rfl, hlive, ha,
            (List.forall_mem_cons.mp hdone).2, hb⟩

/-- The live ones and the finished ones of a vector whose finished ones are
    last. -/
theorem filter_split {live done : List Accepted}
    (hlive : ∀ a ∈ live, flags a.finished = false)
    (hdone : ∀ a ∈ done, flags a.finished = true) :
    (live ++ done).filter (fun a => !flags a.finished) = live ∧
      (live ++ done).filter (fun a => flags a.finished) = done := by
  have hkept : live.filter (fun a => !flags a.finished) = live :=
    List.filter_eq_self.mpr (fun a ha => by rw [hlive a ha]; rfl)
  have hnone : live.filter (fun a => flags a.finished) = [] :=
    List.filter_eq_nil_iff.mpr (fun a ha => by rw [hlive a ha]; exact
      Bool.false_ne_true)
  have hgone : done.filter (fun a => !flags a.finished) = [] :=
    List.filter_eq_nil_iff.mpr (fun a ha => by rw [hdone a ha]; exact
      Bool.false_ne_true)
  have hall : done.filter (fun a => flags a.finished) = done :=
    List.filter_eq_self.mpr hdone
  rw [List.filter_append, List.filter_append, hkept, hnone, hgone, hall]
  exact ⟨List.append_nil _, rfl⟩

/-- Reaping that returns keeps exactly the live ones, in order. -/
theorem reap_ok {accepted : List Accepted} {kept : List Connection}
    {joined : List ThreadId}
    (h : reapFinishedConnections flags (accepted.map Accepted.connection)
      = .ok (kept, joined)) :
    kept = (accepted.filter (fun a => !flags a.finished)).map
      Accepted.connection := by
  obtain ⟨live, done, rfl, hlive, hdone⟩ |
    ⟨live, a, done, b, later, rfl, hlive, ha, hdone, hb⟩ :=
      split_cases flags accepted
  · rw [reap_ordered hlive hdone] at h
    cases h
    rw [(filter_split hlive hdone).1]
  · rw [reap_disordered hlive ha hdone hb] at h
    cases h

/-- **REAPING** joins every finished connection once and keeps exactly the live
    ones, in order, if and only if no finished connection stands before a live
    one. -/
theorem reap_iff (flags : FlagId → Bool) (accepted : List Accepted) :
    (∃ joined, reapFinishedConnections flags
        (accepted.map Accepted.connection)
        = .ok ((accepted.filter (fun a => !flags a.finished)).map
          Accepted.connection, joined) ∧
      joined.Perm ((accepted.filter (fun a => flags a.finished)).map
        Accepted.thread)) ↔
    accepted.Pairwise
      (fun a b => flags a.finished = true → flags b.finished = true) := by
  obtain ⟨live, done, rfl, hlive, hdone⟩ |
    ⟨live, a, done, b, later, rfl, hlive, ha, hdone, hb⟩ :=
      split_cases flags accepted
  · obtain ⟨hkept, hgone⟩ := filter_split hlive hdone
    rw [hkept, hgone]
    refine iff_of_true ⟨_, reap_ordered hlive hdone, List.Perm.refl _⟩ ?_
    refine List.pairwise_append.mpr ⟨?_, ?_, ?_⟩
    · exact List.Pairwise.imp_of_mem
        (fun ha _ _ hfinished => by rw [hlive _ ha] at hfinished; cases hfinished)
        (List.pairwise_of_forall (fun _ _ => trivial) (R := fun _ _ => True))
    · exact List.Pairwise.imp_of_mem (fun _ hb _ _ => hdone _ hb)
        (List.pairwise_of_forall (fun _ _ => trivial) (R := fun _ _ => True))
    · exact fun _ _ b hb _ => hdone b hb
  · refine iff_of_false ?_ ?_
    · rintro ⟨joined, hok, -⟩
      rw [reap_disordered hlive ha hdone hb] at hok
      cases hok
    · intro hpairwise
      have hrest := (List.pairwise_append.mp hpairwise).2.1
      have hfinished := List.rel_of_pairwise_cons hrest
        (List.mem_append_right done List.mem_cons_self) ha
      rw [hb] at hfinished
      cases hfinished

/-- The first of two clients has left: the process ends when the third
    comes. -/
theorem reap_terminates :
    reapFinishedConnections (fun id => id == 0)
      ([⟨10, 0⟩, ⟨11, 1⟩].map Accepted.connection) = .error .terminate := by
  decide

end OsxListener
