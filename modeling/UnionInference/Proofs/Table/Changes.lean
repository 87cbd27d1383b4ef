import Mathlib.Data.List.Basic
import UnionInference.Table.Ordered

/-!
A table against a plain row of entries. In a row, storing a value replaces it in place or appends an
entry, and removing a key takes its entry out. Keys need only be compared by an equivalence that the
hash respects, and an entry keeps the key that it came with. Main statement: whatever is stored and
removed, the table answers as the row does, holds its entries, and its index tells the place of each
key of the row and of no other one.
-/

namespace UnionInference

/-! ### Rows of entries -/

namespace Row

variable {κ ν : Type} [BEq κ] {row : List (κ × ν)} {k k' : κ} {i : Nat}

/-- The place of a key. -/
def place? (row : List (κ × ν)) (k : κ) : Option Nat := row.findIdx? fun e => e.1 == k

/-- The value under a key. -/
def get? (row : List (κ × ν)) (k : κ) : Option ν := (row.find? fun e => e.1 == k).map Prod.snd

/-- Stores a value: in place of the one under the key, else at the end. -/
def store (k : κ) (v : ν) : List (κ × ν) → List (κ × ν)
  | [] => [(k, v)]
  | e :: row => if e.1 == k then (e.1, v) :: row else e :: store k v row

/-- Takes the entry of a key out. -/
def remove (k : κ) (row : List (κ × ν)) : List (κ × ν) := row.eraseP fun e => e.1 == k

/-- No two entries have the same key. -/
def Distinct (row : List (κ × ν)) : Prop := row.Pairwise fun e e' => (e.1 == e'.1) = false

theorem place?_cons (e : κ × ν) (row : List (κ × ν)) (k : κ) :
    place? (e :: row) k = if e.1 == k then some 0 else (place? row k).map (· + 1) := by
  rw [place?, List.findIdx?_cons]
  rfl

theorem place?_eq_none_iff : place? row k = none ↔ ∀ e ∈ row, (e.1 == k) = false := by
  simp [place?, List.findIdx?_eq_none_iff]

theorem get?_eq_place? (row : List (κ × ν)) (k : κ) :
    get? row k = (place? row k).bind fun i => (row[i]?).map Prod.snd := by
  induction row with
  | nil => rfl
  | cons e row ih =>
    rw [place?_cons, get?, List.find?_cons]
    cases e.1 == k with
    | true => rfl
    | false =>
      change get? row k = _
      rw [ih, if_neg Bool.false_ne_true, Option.bind_map]
      rfl

/-! ### Storing -/

theorem store_of_place? {v : ν} (h : place? row k = some i) :
    store k v row = row.modify i fun e => (e.1, v) := by
  induction row generalizing i with
  | nil => cases h
  | cons e row ih =>
    rw [place?_cons] at h
    rw [store]
    split at h
    · next he =>
      cases h
      rw [if_pos he]
      rfl
    · next he =>
      obtain ⟨j, hj, rfl⟩ := Option.map_eq_some_iff.1 h
      rw [if_neg he, ih hj]
      rfl

theorem store_of_place?_eq_none {v : ν} (h : place? row k = none) :
    store k v row = row ++ [(k, v)] := by
  induction row with
  | nil => rfl
  | cons e row ih =>
    obtain ⟨he, hrow⟩ := List.forall_mem_cons.1 (place?_eq_none_iff.1 h)
    rw [store, if_neg (by simp [he]), ih (place?_eq_none_iff.2 hrow)]
    rfl

theorem key_of_mem_store {v : ν} {e : κ × ν} (h : e ∈ store k v row) :
    e.1 = k ∨ ∃ e' ∈ row, e'.1 = e.1 := by
  induction row with
  | nil => exact .inl (by rw [List.mem_singleton.1 h])
  | cons e' row ih =>
    rw [store] at h
    split at h
    · rcases List.mem_cons.1 h with rfl | h
      · exact .inr ⟨e', List.mem_cons_self, rfl⟩
      · exact .inr ⟨e, List.mem_cons_of_mem _ h, rfl⟩
    · rcases List.mem_cons.1 h with rfl | h
      · exact .inr ⟨e, List.mem_cons_self, rfl⟩
      · exact (ih h).imp_right fun ⟨e', he', heq⟩ => ⟨e', List.mem_cons_of_mem _ he', heq⟩

theorem place?_congr [EquivBEq κ] (row : List (κ × ν)) (h : (k == k') = true) :
    place? row k = place? row k' := by
  unfold place?
  congr 1
  funext e
  exact BEq.congr_right h

theorem Distinct.store (h : Distinct row) (k : κ) (v : ν) : Distinct (store k v row) := by
  induction row with
  | nil => exact List.pairwise_singleton _ _
  | cons e row ih =>
    obtain ⟨hfirst, hrest⟩ := List.pairwise_cons.1 h
    rw [Row.store]
    split
    · exact List.pairwise_cons.2 ⟨hfirst, hrest⟩
    · next he =>
      refine List.pairwise_cons.2 ⟨fun e' he' => ?_, ih hrest⟩
      rcases key_of_mem_store he' with heq | ⟨e'', hmem, heq⟩
      · rw [heq]
        exact Bool.eq_false_iff.2 he
      · exact heq ▸ hfirst e'' hmem

/-- A key that is stored keeps its place or gets the one at the end; the others stay. -/
theorem place?_store [EquivBEq κ] (v : ν) (row : List (κ × ν)) (k k' : κ) :
    place? (store k v row) k' =
      if k == k' then some ((place? row k).getD row.length) else place? row k' := by
  induction row with
  | nil =>
    rw [store, place?_cons]
    rfl
  | cons e row ih =>
    rw [store]
    cases he : e.1 == k with
    | true =>
      rw [if_pos rfl, place?_cons, place?_cons, place?_cons, he, BEq.congr_left he]
      cases k == k' <;> rfl
    | false =>
      rw [if_neg Bool.false_ne_true, place?_cons, ih, place?_cons e row k, he, place?_cons e row k']
      cases hk : k == k' with
      | true =>
        rw [← BEq.congr_right hk, he]
        cases place? row k <;> rfl
      | false => rfl

/-! ### Removing -/

theorem remove_of_place? (h : place? row k = some i) : remove k row = row.eraseIdx i := by
  rw [place?] at h
  rw [remove, List.eraseP_eq_eraseIdx, h]

theorem remove_of_place?_eq_none (h : place? row k = none) : remove k row = row := by
  rw [place?] at h
  rw [remove, List.eraseP_eq_eraseIdx, h]

theorem remove_cons (e : κ × ν) (row : List (κ × ν)) (k : κ) :
    remove k (e :: row) = if e.1 == k then row else e :: remove k row := by
  rw [remove, List.eraseP_cons, cond_eq_ite]
  rfl

theorem Distinct.remove (h : Distinct row) (k : κ) : Distinct (remove k row) :=
  List.Pairwise.sublist List.eraseP_sublist h

/-- A key that is removed has no place any more; later places move down by one. -/
theorem Distinct.place?_remove [EquivBEq κ] (h : Distinct row) (hi : place? row k = some i)
    (k' : κ) :
    place? (Row.remove k row) k' =
      if k == k' then none else (place? row k').map fun j => if i < j then j - 1 else j := by
  induction row generalizing i with
  | nil => cases hi
  | cons e row ih =>
    obtain ⟨hfirst, hrest⟩ := List.pairwise_cons.1 h
    rw [place?_cons] at hi
    rw [remove_cons, place?_cons]
    cases he : e.1 == k with
    | true =>
      rw [he, if_pos rfl, Option.some.injEq] at hi
      subst hi
      rw [if_pos rfl, BEq.congr_left he]
      cases hk : k == k' with
      | true =>
        -- the key stood once
        refine place?_eq_none_iff.2 fun e' he' => ?_
        rw [← hfirst e' he', BEq.comm (a := e.1), BEq.congr_right (BEq.trans he hk)]
      | false => simp [Option.map_map, Function.comp_def]
    | false =>
      rw [he, if_neg Bool.false_ne_true] at hi
      obtain ⟨j, hj, rfl⟩ := Option.map_eq_some_iff.1 hi
      rw [if_neg Bool.false_ne_true, place?_cons, ih hrest hj]
      cases hk : k == k' with
      | true =>
        rw [← BEq.congr_right hk, he]
        rfl
      | false =>
        cases e.1 == k' with
        | true => rfl
        | false =>
          simp only [Bool.false_eq_true, if_false, Option.map_map]
          congr 1
          funext l
          simp only [Function.comp_apply, Nat.add_lt_add_iff_right]
          split <;> omega

/-! ### Looking up -/

theorem place?_isSome (row : List (κ × ν)) (k : κ) :
    (place? row k).isSome = row.any fun e => e.1 == k := List.findIdx?_isSome

/-- Where keys are distinct, each entry stands at the place of its key. -/
theorem Distinct.place?_eq_some_iff [EquivBEq κ] (h : Distinct row) :
    place? row k = some i ↔ ∃ e, row[i]? = some e ∧ (e.1 == k) = true := by
  rw [place?, List.findIdx?_eq_some_iff_getElem]
  constructor
  · rintro ⟨hi, hk, -⟩
    exact ⟨row[i], List.getElem?_eq_getElem hi, hk⟩
  · rintro ⟨e, he, hk⟩
    obtain ⟨hi, rfl⟩ := List.getElem?_eq_some_iff.1 he
    refine ⟨hi, hk, fun j hj hkj => ?_⟩
    have hne := List.pairwise_iff_getElem.1 h j i (Nat.lt_trans hj hi) hi hj
    rw [BEq.congr_left hkj, BEq.comm, hk] at hne
    cases hne

end Row

/-! ### Changes, one after the other -/

/-- A change to a table. -/
inductive TableChange (κ ν : Type) where
  | store (key : κ) (value : ν)
  | remove (key : κ)

/-- The answers to requests made one after the other, and the state after them. -/
def inTurn {σ ρ α : Type} (step : σ → ρ → α × σ) : List ρ → σ → List α × σ
  | [], s => ([], s)
  | r :: rs, s =>
    let rest := inTurn step rs (step s r).2
    ((step s r).1 :: rest.1, rest.2)

/-- What a change does to a row, and the value that stood under the key before. -/
def Row.change {κ ν : Type} [BEq κ] (row : List (κ × ν)) : TableChange κ ν → Option ν × List (κ × ν)
  | .store k v => (Row.get? row k, Row.store k v row)
  | .remove k => (Row.get? row k, Row.remove k row)

namespace OrderedTable

variable {κ ν : Type} [BEq κ] [Hashable κ]

/-- What a change does to a table, and the value that stood under the key before. -/
def change (t : OrderedTable κ ν) : TableChange κ ν → Option ν × OrderedTable κ ν
  | .store k v => t.exchange k v
  | .remove k => t.take k

/-- The table holds the entries of the row, and its index tells their places. -/
structure Follows (t : OrderedTable κ ν) (row : List (κ × ν)) : Prop where
  entries : t.toList = row
  index : ∀ k, t.index[k]? = Row.place? row k
  distinct : Row.Distinct row

variable {t : OrderedTable κ ν} {row : List (κ × ν)}

theorem follows_empty : (empty : OrderedTable κ ν).Follows [] :=
  ⟨rfl, fun _ => Std.HashMap.getElem?_empty, List.Pairwise.nil⟩

theorem Follows.get? (h : t.Follows row) (k : κ) : t.get? k = Row.get? row k := by
  rw [Row.get?_eq_place?, OrderedTable.get?, h.index]
  cases Row.place? row k with
  | none => rfl
  | some i =>
    show (t.entries[i]?).map Prod.snd = (row[i]?).map Prod.snd
    rw [← h.entries, ← Array.getElem?_toList]
    rfl

variable [EquivBEq κ] [LawfulHashable κ]

theorem Follows.insert (h : t.Follows row) (k : κ) (v : ν) :
    (t.insert k v).Follows (Row.store k v row) := by
  refine ⟨?_, fun k' => ?_, h.distinct.store k v⟩
  · rw [OrderedTable.insert, h.index]
    cases hp : Row.place? row k with
    | none =>
      rw [Row.store_of_place?_eq_none hp, ← h.entries]
      exact Array.toList_push
    | some i =>
      rw [Row.store_of_place? hp, ← h.entries]
      exact Array.toList_modify
  · rw [Row.place?_store, ← h.index k', OrderedTable.insert, h.index k]
    cases hp : Row.place? row k with
    | none =>
      dsimp only
      rw [Std.HashMap.getElem?_insert, Option.getD_none, ← h.entries]
      rfl
    | some i =>
      dsimp only
      split
      · next hk => rw [h.index, ← Row.place?_congr row hk, hp, Option.getD_some]
      · rfl

theorem Follows.erase (h : t.Follows row) (k : κ) : (t.erase k).Follows (Row.remove k row) := by
  rw [OrderedTable.erase, h.index]
  cases hp : Row.place? row k with
  | none =>
    rw [Row.remove_of_place?_eq_none hp]
    exact h
  | some i =>
    refine ⟨?_, fun k' => ?_, h.distinct.remove k⟩
    · have hlt : i < t.entries.size := by
        have := (List.findIdx?_eq_some_iff_getElem.1 hp).1
        rwa [← h.entries] at this
      rw [Row.remove_of_place? hp, ← h.entries]
      show (t.entries.eraseIdxIfInBounds i).toList = t.entries.toList.eraseIdx i
      rw [Array.eraseIdxIfInBounds, dif_pos hlt, Array.toList_eraseIdx]
    · rw [h.distinct.place?_remove hp, ← h.index k']
      dsimp only
      rw [Std.HashMap.getElem?_map', Option.pmap_eq_map, Std.HashMap.getElem?_erase]
      split <;> rfl

theorem Follows.change (h : t.Follows row) (c : TableChange κ ν) :
    (t.change c).1 = (Row.change row c).1 ∧ (t.change c).2.Follows (Row.change row c).2 := by
  cases c with
  | store k v => exact ⟨h.get? k, h.insert k v⟩
  | remove k => exact ⟨h.get? k, h.erase k⟩

/-- By induction on the changes: the table keeps following the row, and the answers are the same. -/
theorem Follows.inTurn (h : t.Follows row) (cs : List (TableChange κ ν)) :
    (inTurn OrderedTable.change cs t).1 = (inTurn Row.change cs row).1 ∧
      (inTurn OrderedTable.change cs t).2.Follows (inTurn Row.change cs row).2 := by
  induction cs generalizing t row with
  | nil => exact ⟨rfl, h⟩
  | cons c cs ih =>
    obtain ⟨hanswer, hnext⟩ := h.change c
    obtain ⟨hanswers, hlast⟩ := ih hnext
    exact ⟨congrArg₂ List.cons hanswer hanswers, hlast⟩

/-- The table looks like the row from outside, and its index tells the place of each key of the row
and of no other one: places are different for different keys and lie within the row. -/
structure Mirrors (t : OrderedTable κ ν) (row : List (κ × ν)) : Prop where
  toList : t.toList = row
  keys : t.keys = row.map Prod.fst
  values : t.values = row.map Prod.snd
  size : t.size = row.length
  isEmpty : t.isEmpty = row.isEmpty
  get? : ∀ k, t.get? k = Row.get? row k
  contains : ∀ k, t.contains k = row.any fun e => e.1 == k
  index : ∀ (k : κ) (i : Nat), t.index[k]? = some i ↔ ∃ e, row[i]? = some e ∧ (e.1 == k) = true
  indexed : ∀ k, t.index.contains k = true ↔ ∃ e ∈ row, (e.1 == k) = true
  apart : ∀ (k k' : κ) (i : Nat), t.index[k]? = some i → t.index[k']? = some i → (k == k') = true
  within : ∀ (k : κ) (i : Nat), t.index[k]? = some i → i < t.size

theorem Follows.mirrors (h : t.Follows row) : t.Mirrors row := by
  have hindex : ∀ (k : κ) (i : Nat),
      t.index[k]? = some i ↔ ∃ e, row[i]? = some e ∧ (e.1 == k) = true := by
    intro k i
    rw [h.index, h.distinct.place?_eq_some_iff]
  have hcontains : ∀ k, t.index.contains k = row.any fun e => e.1 == k := by
    intro k
    rw [Std.HashMap.contains_eq_isSome_getElem?, h.index, Row.place?_isSome]
  refine ⟨h.entries, congrArg _ h.entries, congrArg _ h.entries, congrArg _ h.entries, ?_, h.get?,
    hcontains, hindex, fun k => ?_, fun k k' i hi hi' => ?_, fun k i hi => ?_⟩
  · rw [← h.entries, OrderedTable.toList, isEmpty, Array.isEmpty_toList]
  · rw [hcontains, List.any_eq_true]
  · obtain ⟨e, he, hk⟩ := (hindex k i).1 hi
    obtain ⟨e', he', hk'⟩ := (hindex k' i).1 hi'
    cases he.symm.trans he'
    exact BEq.trans (BEq.symm hk) hk'
  · obtain ⟨e, he, -⟩ := (hindex k i).1 hi
    rw [← h.entries, OrderedTable.toList, Array.getElem?_toList] at he
    exact (Array.getElem?_eq_some_iff.1 he).1

/-- Whatever is stored in an empty table and removed from it, each change answers with the value
that stood under the key in the row, and the table mirrors the row afterwards. -/
theorem inTurn_change_mirrors (cs : List (TableChange κ ν)) :
    (inTurn change cs empty).1 = (inTurn Row.change cs []).1 ∧
      (inTurn change cs empty).2.Mirrors (inTurn Row.change cs []).2 := by
  obtain ⟨hanswers, hfollows⟩ := follows_empty.inTurn cs
  exact ⟨hanswers, hfollows.mirrors⟩

/-- A value is replaced in its place, and the places after a removed key move down. -/
theorem inTurn_change_mirrors_letters :
    let cs : List (TableChange String Nat) := [.store "x" 1, .store "y" 2, .store "z" 3, .remove "x",
      .store "y" 4, .remove "missing"]
    let t := (inTurn change cs empty).2
    EquivBEq String ∧ LawfulHashable String ∧
      (inTurn change cs empty).1 = [none, none, none, some 1, some 2, none] ∧
      t.toList = [("y", 4), ("z", 3)] ∧ t.get? "z" = some 3 ∧ t.index["z"]? = some 1 := by
  intro cs t
  obtain ⟨hanswers, hmirrors⟩ := inTurn_change_mirrors cs
  have hrow : inTurn Row.change cs [] =
      ([none, none, none, some 1, some 2, none], [("y", 4), ("z", 3)]) := by decide
  rw [hrow] at hanswers hmirrors
  refine ⟨inferInstance, inferInstance, hanswers, hmirrors.toList, ?_, ?_⟩
  · rw [hmirrors.get?]
    rfl
  · exact (hmirrors.index "z" 1).2 ⟨("z", 3), rfl, rfl⟩

end OrderedTable

end UnionInference
