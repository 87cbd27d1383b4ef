import Mathlib.Data.List.Nodup
import UnionInference.Table.Ordered

/-!
Tables in order of arrival. A table is valid when its index tells the place of each key in the row
and of no other key. Every operation keeps a table valid, and on a valid table looking a key up in
the index is looking it up in the row.
-/

namespace UnionInference.OrderedTable

variable {κ ν : Type} [BEq κ] [Hashable κ]

/-- The index tells the place of each key of the row, and of no other key. -/
def Valid (t : OrderedTable κ ν) : Prop :=
  ∀ (k : κ) (i : Nat), t.index[k]? = some i ↔ ∃ v, t.entries[i]? = some (k, v)

variable {t : OrderedTable κ ν} {k k' : κ} {v : ν}

theorem valid_empty : (empty : OrderedTable κ ν).Valid := by
  intro k i
  simp [empty]

theorem mem_toList {e : κ × ν} : e ∈ t.toList ↔ ∃ i : Nat, t.entries[i]? = some e := by
  rw [toList, Array.mem_toList_iff, Array.mem_iff_getElem?]

/-! ### Looking up -/

theorem Valid.get?_eq_some_iff (h : t.Valid) : t.get? k = some v ↔ (k, v) ∈ t.toList := by
  rw [mem_toList]
  unfold get?
  constructor
  · intro hg
    split at hg
    case h_1 i hi =>
      obtain ⟨w, hw⟩ := (h k i).1 hi
      rw [hw] at hg
      cases hg
      exact ⟨i, hw⟩
    case h_2 => cases hg
  · rintro ⟨i, hi⟩
    rw [(h k i).2 ⟨v, hi⟩]
    simp [hi]

theorem Valid.place_unique (h : t.Valid) {i j : Nat} {v w : ν}
    (hi : t.entries[i]? = some (k, v)) (hj : t.entries[j]? = some (k, w)) : i = j := by
  have hki := (h k i).2 ⟨v, hi⟩
  rw [(h k j).2 ⟨w, hj⟩] at hki
  exact (Option.some.inj hki).symm

theorem Valid.nodup_keys (h : t.Valid) : t.keys.Nodup := by
  rw [List.nodup_iff_getElem?_ne_getElem?]
  intro i j hij hj heq
  have hlt : j < t.entries.size := by simpa [keys, toList] using hj
  simp only [keys, toList, List.getElem?_map, Array.getElem?_toList] at heq
  rw [Array.getElem?_eq_getElem hlt, Array.getElem?_eq_getElem (Nat.lt_trans hij hlt),
    Option.map_some, Option.map_some, Option.some.injEq] at heq
  -- one key at two places
  have hi : t.entries[i]? = some (t.entries[j].1, t.entries[i].2) := by
    rw [← heq, Array.getElem?_eq_getElem (Nat.lt_trans hij hlt)]
  have := h.place_unique hi (Array.getElem?_eq_getElem hlt)
  omega

/-- Where the entries stand after the one at a place is removed. -/
theorem Valid.entries_erase (h : t.Valid) {i : Nat} (hi : t.index[k]? = some i) (j : Nat) :
    (t.entries.eraseIdxIfInBounds i)[j]? = if j < i then t.entries[j]? else t.entries[j + 1]? := by
  obtain ⟨w, hw⟩ := (h k i).1 hi
  have hlt : i < t.entries.size := (Array.getElem?_eq_some_iff.1 hw).1
  rw [← Array.eraseIdx_eq_eraseIdxIfInBounds hlt, Array.getElem?_eraseIdx]

variable [LawfulBEq κ]

theorem Valid.get?_eq_lookup (h : t.Valid) : t.get? k = t.toList.lookup k := by
  apply Option.ext
  intro v
  rw [h.get?_eq_some_iff, List.lookup_eq_some_iff]
  constructor
  · intro hm
    obtain ⟨l₁, l₂, hl⟩ := List.append_of_mem hm
    refine ⟨l₁, l₂, hl, fun e he => ?_⟩
    -- the key stands once, so not before this entry
    have hnodup := h.nodup_keys
    rw [keys, hl, List.map_append, List.nodup_append] at hnodup
    have := hnodup.2.2 e.1 (List.mem_map_of_mem he) k (by simp)
    simpa using Ne.symm this
  · rintro ⟨l₁, l₂, hl, -⟩
    simp [hl]

variable [LawfulHashable κ]

theorem Valid.contains_iff (h : t.Valid) : t.contains k = true ↔ k ∈ t.keys := by
  rw [contains, Std.HashMap.contains_eq_isSome_getElem?, Option.isSome_iff_exists, keys,
    List.mem_map]
  constructor
  · rintro ⟨i, hi⟩
    obtain ⟨v, hv⟩ := (h k i).1 hi
    exact ⟨(k, v), mem_toList.2 ⟨i, hv⟩, rfl⟩
  · rintro ⟨⟨k', v⟩, hm, rfl⟩
    obtain ⟨i, hi⟩ := mem_toList.1 hm
    exact ⟨i, (h k' i).2 ⟨v, hi⟩⟩

theorem Valid.not_mem_keys (h : t.Valid) (hk : t.index[k]? = none) : k ∉ t.keys := by
  rw [← h.contains_iff, contains, Std.HashMap.contains_eq_isSome_getElem?, hk]
  simp

theorem Valid.contains_eq_isSome (h : t.Valid) : t.contains k = (t.get? k).isSome := by
  rw [Bool.eq_iff_iff, h.contains_iff, Option.isSome_iff_exists, keys, List.mem_map]
  simp only [h.get?_eq_some_iff, Prod.exists, exists_and_right, exists_eq_right]

/-! ### Storing -/

theorem toList_insert_of_not_contains (h : t.contains k = false) :
    (t.insert k v).toList = t.toList ++ [(k, v)] := by
  rw [contains, Std.HashMap.contains_eq_isSome_getElem?, Option.isSome_eq_false_iff,
    Option.isNone_iff_eq_none] at h
  simp [insert, h, toList]

theorem Valid.insert (h : t.Valid) (k : κ) (v : ν) : (t.insert k v).Valid := by
  intro k' i
  unfold OrderedTable.insert
  split
  case h_1 j hj =>
    -- the key has a place: the keys of the row stay as they are
    obtain ⟨w, hw⟩ := (h k j).1 hj
    rw [h k' i]
    by_cases hij : j = i
    · subst hij
      simp [Array.getElem?_modify, hw]
    · simp [Array.getElem?_modify, hij]
  case h_2 hnone =>
    -- the key is new: it gets the place at the end
    rw [Std.HashMap.getElem?_insert, Array.getElem?_push]
    have hlt : ∀ (k : κ) (i : Nat), t.index[k]? = some i → i < t.entries.size := by
      intro k i hi
      obtain ⟨w, hw⟩ := (h k i).1 hi
      exact (Array.getElem?_eq_some_iff.1 hw).1
    by_cases hk : k = k'
    · subst hk
      rw [if_pos (by simp)]
      by_cases hi : i = t.entries.size
      · simp [hi]
      · rw [if_neg hi, ← h k i, hnone]
        simp [Ne.symm hi]
    · rw [if_neg (by simp [hk])]
      by_cases hi : i = t.entries.size
      · rw [if_pos hi]
        constructor
        · intro hk'
          exact absurd hi (Nat.ne_of_lt (hlt k' i hk'))
        · rintro ⟨w, hw⟩
          simp [hk] at hw
      · rw [if_neg hi]
        exact h k' i

theorem Valid.mem_insert_iff (h : t.Valid) {e : κ × ν} :
    e ∈ (t.insert k v).toList ↔ e = (k, v) ∨ e.1 ≠ k ∧ e ∈ t.toList := by
  unfold OrderedTable.insert
  split
  case h_1 j hj =>
    obtain ⟨w, hw⟩ := (h k j).1 hj
    simp only [mem_toList, Array.getElem?_modify]
    constructor
    · rintro ⟨i, hi⟩
      by_cases hij : j = i
      · subst hij
        simp only [if_true, hw, Option.map_some, Option.some.injEq] at hi
        exact .inl hi.symm
      · rw [if_neg hij] at hi
        refine .inr ⟨fun hk => hij ?_, i, hi⟩
        subst hk
        exact h.place_unique hw hi
    · rintro (rfl | ⟨hne, i, hi⟩)
      · exact ⟨j, by simp [hw]⟩
      · refine ⟨i, ?_⟩
        rw [if_neg, hi]
        rintro rfl
        rw [hw] at hi
        cases hi
        exact hne rfl
  case h_2 hnone =>
    have hnew := h.not_mem_keys hnone
    simp only [toList, Array.toList_push, List.mem_append, List.mem_singleton]
    constructor
    · rintro (he | rfl)
      · refine .inr ⟨fun hk => hnew (hk ▸ List.mem_map_of_mem he), he⟩
      · exact .inl rfl
    · rintro (rfl | ⟨-, he⟩)
      · exact .inr rfl
      · exact .inl he

theorem Valid.get?_insert (h : t.Valid) :
    (t.insert k v).get? k' = if k == k' then some v else t.get? k' := by
  apply Option.ext
  intro w
  rw [(h.insert k v).get?_eq_some_iff, h.mem_insert_iff]
  by_cases hk : k = k'
  · subst hk
    simp [eq_comm]
  · simp [hk, Ne.symm hk, h.get?_eq_some_iff]

/-! ### Removing -/

theorem Valid.erase (h : t.Valid) (k : κ) : (t.erase k).Valid := by
  intro k' j'
  unfold OrderedTable.erase
  split
  case h_1 i hi =>
    obtain ⟨w, hw⟩ := (h k i).1 hi
    simp only [h.entries_erase hi, Std.HashMap.getElem?_map, Std.HashMap.getElem?_erase]
    constructor
    · intro hj'
      split at hj'
      · cases hj'
      rename_i hk
      obtain ⟨j, hj, rfl⟩ := Option.map_eq_some_iff.1 hj'
      obtain ⟨v, hv⟩ := (h k' j).1 hj
      have hij : i ≠ j := by
        rintro rfl
        rw [hw] at hv
        cases hv
        exact hk (beq_self_eq_true k)
      -- a later entry has moved down by one, an earlier one stays
      refine ⟨v, ?_⟩
      by_cases hlt : i < j
      · rw [if_pos hlt, if_neg (by omega), Nat.sub_add_cancel (by omega), hv]
      · rw [if_neg hlt, if_pos (by omega), hv]
    · rintro ⟨v, hv⟩
      have hne : ∀ j : Nat, t.entries[j]? = some (k', v) → i ≠ j → ¬ (k == k') = true := by
        intro j hj hij hk
        rw [← eq_of_beq hk] at hj
        exact hij (h.place_unique hw hj)
      split at hv
      · rename_i hlt
        rw [if_neg (hne j' hv (by omega)), (h k' j').2 ⟨v, hv⟩]
        simp; omega
      · rename_i hlt
        rw [if_neg (hne (j' + 1) hv (by omega)), (h k' (j' + 1)).2 ⟨v, hv⟩]
        simp; omega
  case h_2 => exact h k' j'

theorem Valid.mem_erase_iff (h : t.Valid) {e : κ × ν} :
    e ∈ (t.erase k).toList ↔ e.1 ≠ k ∧ e ∈ t.toList := by
  unfold OrderedTable.erase
  split
  case h_1 i hi =>
    obtain ⟨w, hw⟩ := (h k i).1 hi
    simp only [mem_toList, h.entries_erase hi]
    constructor
    · rintro ⟨j, hj⟩
      split at hj
      · refine ⟨?_, j, hj⟩
        rintro rfl
        have := h.place_unique hw hj
        omega
      · refine ⟨?_, j + 1, hj⟩
        rintro rfl
        have := h.place_unique hw hj
        omega
    · rintro ⟨hne, j, hj⟩
      have hij : i ≠ j := by
        rintro rfl
        rw [hw] at hj
        cases hj
        exact hne rfl
      by_cases hlt : j < i
      · exact ⟨j, by rw [if_pos hlt, hj]⟩
      · exact ⟨j - 1, by rw [if_neg (by omega), Nat.sub_add_cancel (by omega), hj]⟩
  case h_2 hnone =>
    have hnew := h.not_mem_keys hnone
    exact ⟨fun he => ⟨fun hk => hnew (hk ▸ List.mem_map_of_mem he), he⟩, And.right⟩

theorem Valid.get?_erase (h : t.Valid) :
    (t.erase k).get? k' = if k == k' then none else t.get? k' := by
  apply Option.ext
  intro w
  rw [(h.erase k).get?_eq_some_iff, h.mem_erase_iff]
  by_cases hk : k = k'
  · simp [hk]
  · simp [hk, Ne.symm hk, h.get?_eq_some_iff]

theorem Valid.filter (h : t.Valid) (p : κ → ν → Bool) : (t.filter p).Valid := by
  unfold OrderedTable.filter
  generalize t.toList.filter (fun e => !p e.1 e.2) = dropped
  induction dropped generalizing t with
  | nil => exact h
  | cons e _ ih => exact ih (h.erase e.1)

theorem Valid.get?_foldl_erase (h : t.Valid) (dropped : List (κ × ν)) :
    (dropped.foldl (fun t e => t.erase e.1) t).get? k =
      if k ∈ dropped.map Prod.fst then none else t.get? k := by
  induction dropped generalizing t with
  | nil => simp
  | cons e dropped ih =>
    rw [List.foldl_cons, ih (h.erase e.1), h.get?_erase, List.map_cons]
    by_cases hmem : k ∈ dropped.map Prod.fst
    · rw [if_pos hmem, if_pos (List.mem_cons_of_mem e.1 hmem)]
    · rw [if_neg hmem]
      by_cases hk : e.1 = k
      · rw [if_pos (beq_iff_eq.2 hk), if_pos (List.mem_cons.2 (.inl hk.symm))]
      · rw [if_neg (by simpa using hk), if_neg]
        exact fun h => (List.mem_cons.1 h).elim (fun h => hk h.symm) hmem

theorem Valid.get?_filter (h : t.Valid) (p : κ → ν → Bool) :
    (t.filter p).get? k = (t.get? k).filter (p k) := by
  unfold OrderedTable.filter
  rw [h.get?_foldl_erase]
  cases hg : t.get? k with
  | none => simp
  | some v =>
    have hmem : k ∈ (t.toList.filter fun e => !p e.1 e.2).map Prod.fst ↔ p k v = false := by
      simp only [List.mem_map, List.mem_filter, Bool.not_eq_true', Prod.exists, exists_and_right,
        exists_eq_right]
      constructor
      · rintro ⟨w, hw, hp⟩
        rw [← h.get?_eq_some_iff, hg] at hw
        cases hw
        exact hp
      · exact fun hp => ⟨v, h.get?_eq_some_iff.1 hg, hp⟩
    rw [Option.filter_some]
    cases hp : p k v with
    | false => rw [if_pos (hmem.2 hp), if_neg Bool.false_ne_true]
    | true => rw [if_neg (by simp [hmem, hp]), if_pos rfl]

end UnionInference.OrderedTable
