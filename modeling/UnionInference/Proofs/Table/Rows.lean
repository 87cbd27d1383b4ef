import UnionInference.Proofs.Table.Ordered

/-!
The row of entries of a table. A value that is replaced keeps its place, and entries that are taken
out leave the others in their order; so the row of a table is known from the row before. Tables that
find the same under every key have the same entries, in any order.
-/

namespace UnionInference.OrderedTable

variable {κ ν : Type} [BEq κ] [Hashable κ] {t t' : OrderedTable κ ν} {k : κ} {v : ν}

theorem Valid.nodup_toList (h : t.Valid) : t.toList.Nodup := List.Nodup.of_map _ h.nodup_keys

/-- Tables that find the same have the same entries. -/
theorem Valid.perm_toList (h : t.Valid) (h' : t'.Valid) (heq : ∀ k, t'.get? k = t.get? k) :
    t'.toList.Perm t.toList := by
  refine (List.perm_ext_iff_of_nodup h'.nodup_toList h.nodup_toList).2 fun ⟨k, v⟩ => ?_
  rw [← h.get?_eq_some_iff, ← h'.get?_eq_some_iff, heq]

variable [LawfulBEq κ] [LawfulHashable κ] [DecidableEq κ]

/-- A value that is replaced keeps its place. -/
theorem Valid.toList_insert_of_contains (h : t.Valid) (hk : t.contains k = true) :
    (t.insert k v).toList = t.toList.map fun e => if e.1 = k then (k, v) else e := by
  rw [contains, Std.HashMap.contains_eq_isSome_getElem?, Option.isSome_iff_exists] at hk
  obtain ⟨i, hi⟩ := hk
  obtain ⟨w, hw⟩ := (h k i).1 hi
  refine List.ext_getElem? fun j => ?_
  rw [OrderedTable.insert, hi]
  dsimp only [toList]
  rw [List.getElem?_map, Array.getElem?_toList, Array.getElem?_toList, Array.getElem?_modify]
  by_cases hij : i = j
  · subst hij
    simp [hw]
  · rw [if_neg hij]
    cases he : t.entries[j]? with
    | none => rfl
    | some e =>
      have hne : e.1 ≠ k := by
        rintro rfl
        exact hij (h.place_unique hw he)
      simp [hne]

/-- The entries before and after the place of a key have other keys. -/
theorem Valid.toList_erase (h : t.Valid) (k : κ) :
    (t.erase k).toList = t.toList.filter fun e => e.1 ≠ k := by
  unfold OrderedTable.erase
  split
  case h_1 i hi =>
    obtain ⟨w, hw⟩ := (h k i).1 hi
    obtain ⟨hlt, hget⟩ := Array.getElem?_eq_some_iff.1 hw
    have hsplit : t.toList = t.toList.take i ++ (k, w) :: t.toList.drop (i + 1) := by
      have hlength : i < t.toList.length := hlt
      have hplace : t.toList[i] = (k, w) := hget
      rw [← hplace, ← List.drop_eq_getElem_cons hlength, List.take_append_drop]
    have hnodup := h.nodup_keys
    rw [keys, hsplit, List.map_append, List.map_cons] at hnodup
    have hothers : ∀ e ∈ t.toList.take i ++ t.toList.drop (i + 1), e.1 ≠ k := by
      intro e he hk
      have hperm := List.perm_middle.nodup_iff.1 hnodup
      rw [List.nodup_cons, ← List.map_append] at hperm
      exact hperm.1 (List.mem_map.2 ⟨e, he, hk⟩)
    have hrest : (t.entries.eraseIdxIfInBounds i).toList =
        t.toList.take i ++ t.toList.drop (i + 1) := by
      rw [Array.eraseIdxIfInBounds, dif_pos hlt, Array.toList_eraseIdx,
        List.eraseIdx_eq_take_drop_succ]
      rfl
    rw [List.forall_mem_append] at hothers
    show (t.entries.eraseIdxIfInBounds i).toList = _
    rw [hrest]
    conv_rhs => rw [hsplit]
    rw [List.filter_append, List.filter_cons_of_neg (by simp)]
    rw [List.filter_eq_self.2 fun e he => by simpa using hothers.1 e he,
      List.filter_eq_self.2 fun e he => by simpa using hothers.2 e he]
  case h_2 hnone =>
    refine (List.filter_eq_self.2 fun e he => ?_).symm
    have hne : e.1 ≠ k := by
      rintro rfl
      exact h.not_mem_keys hnone (List.mem_map_of_mem he)
    simpa using hne

theorem Valid.toList_foldl_erase (h : t.Valid) (dropped : List (κ × ν)) :
    (dropped.foldl (fun t e => t.erase e.1) t).toList =
      t.toList.filter fun e => e.1 ∉ dropped.map Prod.fst := by
  induction dropped generalizing t with
  | nil => simp
  | cons d dropped ih =>
    rw [List.foldl_cons, ih (h.erase d.1), h.toList_erase, List.filter_filter]
    refine List.filter_congr fun e _ => ?_
    rw [← Bool.decide_and, List.map_cons, decide_eq_decide, List.mem_cons, not_or, and_comm]

/-- The entries that satisfy the test are left, in their order. -/
theorem Valid.toList_filter (h : t.Valid) (p : κ → ν → Bool) :
    (t.filter p).toList = t.toList.filter fun e => p e.1 e.2 := by
  rw [OrderedTable.filter, h.toList_foldl_erase]
  refine List.filter_congr fun e he => ?_
  -- a key stands for one entry
  have hiff : e.1 ∈ (t.toList.filter fun e => !p e.1 e.2).map Prod.fst ↔ p e.1 e.2 = false := by
    constructor
    · intro hmem
      obtain ⟨e', he', hkey⟩ := List.mem_map.1 hmem
      obtain ⟨hin, hp⟩ := List.mem_filter.1 he'
      have hsame : e' = e := List.inj_on_of_nodup_map h.nodup_keys hin he hkey
      simpa [hsame] using hp
    · exact fun hp => List.mem_map_of_mem (List.mem_filter.2 ⟨he, by simp [hp]⟩)
  simp [hiff]

end UnionInference.OrderedTable
