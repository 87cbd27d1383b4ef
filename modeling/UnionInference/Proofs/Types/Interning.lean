import UnionInference.Proofs.Types.Unambiguous

/-!
Interning is canonical. A new table holds the built-in types and is canonical; holding one more type
keeps it so and moves nothing, because a type that is not found under the text by which it is looked
for is not found under its own text either. Hence the place of a type says exactly what the type is,
in every table that a row of requests leads to.
-/

namespace UnionInference

namespace TypeKind

/-- Kinds that are alike stay alike when names are compared more loosely. -/
theorem Alike.mono {R S : ClassName → ClassName → Prop} (hRS : ∀ x y, R x y → S x y) :
    ∀ {a b : TypeKind}, a.Alike R b → a.Alike S b
  | .native _, .native _, h => h
  | .object _ _, .object _ _, h => ⟨hRS _ _ h.1, h.2⟩
  | .array .., .array .., h => h
  | .shape _, .shape _, h => h
  | .intLiteral _, .intLiteral _, h => h
  | .stringLiteral _, .stringLiteral _, h => h
  | .callable _, .callable _, h => h
  | .template _, .template _, h => h

theorem fold_fold (kind : TypeKind) : kind.fold.fold = kind.fold := by
  cases kind with
  | object name args =>
    simp only [fold]
    rw [QualifiedName.fold_fold]
  | _ => rfl

end TypeKind

namespace TypeTable

variable {t t' t'' : TypeTable} {ty : Ty}

/-! ### Holding one more type -/

theorem identity_fold (t : TypeTable) (ty : Ty) : t.identity ty.fold = t.identity ty := by
  rw [identity_eq_render_fold, identity_eq_render_fold, Ty.fold, Ty.fold, TypeKind.fold_fold]

/-- What is written the same is looked for under the same text. -/
theorem Canonical.identity_eq_of_render_eq (hc : t.Canonical) {a b : Ty} (ha : t.Writable a)
    (hb : t.Writable b) (h : t.render a = t.render b) : t.identity a = t.identity b := by
  obtain ⟨hnull, hkind⟩ := (hc.render_eq_iff ha hb).1 h
  refine (hc.identity_eq_iff ha hb).2 ⟨hnull, hkind.mono fun x y hxy => ?_⟩
  rw [QualifiedName.foldedText, QualifiedName.foldedText, hxy]

/-- A type that is not found under the text by which it is looked for is not found under its own
text either. -/
theorem Canonical.byKey_render (hc : t.Canonical) {ty : Ty} (hw : t.Writable ty)
    (h : t.byKey[t.identity ty]? = none) : t.byKey[t.render ty]? = none := by
  rw [Option.eq_none_iff_forall_ne_some]
  intro i hi
  obtain ⟨e, he, hkey⟩ := hc.onlyFound _ i hi
  have hwe := hc.writable he
  have hid : t.identity e.type = t.identity ty := by
    rcases hkey with hkey | hkey
    · rw [hc.keyed i e he] at hkey
      exact hc.identity_eq_of_render_eq hwe hw hkey.symm
    · rw [identity_eq_render_fold] at hkey
      have := hc.identity_eq_of_render_eq hwe.fold hw hkey.symm
      rwa [identity_fold] at this
  rw [← hid, hc.identityFound i e he] at h
  cases h

/-- What is left when a type joins the table: one more entry, found under its two texts. -/
structure Joins (t : TypeTable) (ty : Ty) (t' : TypeTable) : Prop where
  entries : t'.entries = t.entries.push ⟨ty, t.render ty⟩
  byKey : t'.byKey = (t.byKey.insert (t.identity ty) t.size).insert (t.render ty) t.size

/-- Either the type is found, or it joins the table at its end. -/
theorem place_cases (ty : Ty) (h : ∀ e ∈ ty.kind.embedded, e < t.size) :
    (∃ id, t.byKey[t.identity ty]? = some id ∧ t.place ty h = (id, t)) ∨
      (t.byKey[t.identity ty]? = none ∧ (t.place ty h).1 = t.size ∧ t.Joins ty (t.place ty h).2) := by
  rw [place.eq_def]
  split
  · next id hid => exact .inl ⟨id, hid, rfl⟩
  · next hnone => exact .inr ⟨hnone, rfl, rfl, rfl⟩

theorem cache_place (ty : Ty) (h : ∀ e ∈ ty.kind.embedded, e < t.size) :
    (t.place ty h).2.cache = t.cache := by
  unfold place
  split <;> rfl

theorem Joins.entry_old (h : t.Joins ty t') {i : TypeId} {e : TypeEntry}
    (he : t.entries[i]? = some e) : t'.entries[i]? = some e := by
  rw [h.entries, Array.getElem?_push_lt (lt_size_of_entry he)]
  exact (Array.getElem?_eq_getElem (lt_size_of_entry he)).symm.trans he

theorem Joins.entry_new (h : t.Joins ty t') : t'.entries[t.size]? = some ⟨ty, t.render ty⟩ := by
  rw [h.entries, size, Array.getElem?_push_size]

theorem Joins.entry_cases (h : t.Joins ty t') {i : TypeId} {e : TypeEntry}
    (he : t'.entries[i]? = some e) :
    t.entries[i]? = some e ∨ (i = t.size ∧ e = ⟨ty, t.render ty⟩) := by
  rw [h.entries, Array.getElem?_push] at he
  split at he
  · next hi => exact .inr ⟨hi, (Option.some.inj he).symm⟩
  · exact .inl he

/-- A type that was not found moves nothing that was. -/
theorem Joins.extends (hc : t.Canonical) (hw : t.Writable ty)
    (hnone : t.byKey[t.identity ty]? = none) (h : t.Joins ty t') : t.Extends t' where
  entries _ _ := h.entry_old
  byKey k i hk := by
    have hid : t.identity ty ≠ k := by rintro rfl; rw [hnone] at hk; cases hk
    have hren : t.render ty ≠ k := by rintro rfl; rw [hc.byKey_render hw hnone] at hk; cases hk
    rw [h.byKey, Std.HashMap.getElem?_insert, if_neg (by simpa using hren),
      Std.HashMap.getElem?_insert, if_neg (by simpa using hid), hk]

/-- A table stays canonical when a type joins it that was not found. -/
theorem Joins.canonical (hc : t.Canonical) (hw : t.Writable ty)
    (hnone : t.byKey[t.identity ty]? = none) (h : t.Joins ty t') : t'.Canonical := by
  have hext := h.extends hc hw hnone
  have hold : ∀ {i : TypeId} {e : TypeEntry}, t.entries[i]? = some e →
      t'.render e.type = t.render e.type ∧ t'.identity e.type = t.identity e.type := fun he =>
    ⟨hext.render_eq (hc.writable he).inside, hext.identity_eq (hc.writable he).inside⟩
  have hrender : t'.render ty = t.render ty := hext.render_eq hw.inside
  have hident : t'.identity ty = t.identity ty := hext.identity_eq hw.inside
  constructor
  case keyed =>
    intro i e he
    rcases h.entry_cases he with he | ⟨-, rfl⟩
    · rw [hc.keyed i e he, (hold he).1]
    · exact hrender.symm
  case keyFound =>
    intro i e he
    rcases h.entry_cases he with he | ⟨rfl, rfl⟩
    · exact hext.byKey _ _ (hc.keyFound i e he)
    · rw [h.byKey, Std.HashMap.getElem?_insert_self]
  case identityFound =>
    intro i e he
    rcases h.entry_cases he with he | ⟨rfl, rfl⟩
    · rw [(hold he).2]
      exact hext.byKey _ _ (hc.identityFound i e he)
    · rw [hident, h.byKey, Std.HashMap.getElem?_insert]
      split
      · rfl
      · rw [Std.HashMap.getElem?_insert_self]
  case onlyFound =>
    intro k i hk
    rw [h.byKey, Std.HashMap.getElem?_insert] at hk
    split at hk
    · next hren =>
      cases hk
      exact ⟨_, h.entry_new, .inl (beq_iff_eq.1 hren).symm⟩
    · rw [Std.HashMap.getElem?_insert] at hk
      split at hk
      · next hid =>
        cases hk
        exact ⟨_, h.entry_new, .inr ((beq_iff_eq.1 hid).symm.trans hident.symm)⟩
      · obtain ⟨e, he, hkey⟩ := hc.onlyFound k i hk
        exact ⟨e, h.entry_old he, by rwa [(hold he).2]⟩
  case normal =>
    intro i e he
    rcases h.entry_cases he with he | ⟨-, rfl⟩
    · exact hc.normal i e he
    · exact hw.normal
  case named =>
    intro i e he
    rcases h.entry_cases he with he | ⟨-, rfl⟩
    · exact hc.named i e he
    · exact hw.named
  case natives => exact fun k => h.entry_old (hc.natives k)

/-- The type is found at the place, be it spelled as it is there or in other letter case. -/
def Finds (t : TypeTable) (ty : Ty) (id : TypeId) : Prop := t.byKey[t.identity ty]? = some id

theorem Finds.unique {i j : TypeId} (hi : t.Finds ty i) (hj : t.Finds ty j) : i = j :=
  Option.some.inj (hi.symm.trans hj)

theorem Finds.extends {i : TypeId} (h : t.Finds ty i) (hin : ∀ e ∈ ty.kind.embedded, e < t.size)
    (hext : t.Extends t') : t'.Finds ty i := by
  rw [Finds, hext.identity_eq hin]
  exact hext.byKey _ _ h

theorem Canonical.finds_entry (hc : t.Canonical) {i : TypeId} {e : TypeEntry}
    (he : t.entries[i]? = some e) : t.Finds e.type i := hc.identityFound i e he

/-- What is found at a place is looked for under the same text as the type that is there. -/
theorem Canonical.identity_of_finds (hc : t.Canonical) (hw : t.Writable ty) {i : TypeId}
    (h : t.Finds ty i) : ∃ e, t.entries[i]? = some e ∧ t.identity e.type = t.identity ty := by
  obtain ⟨e, he, hkey⟩ := hc.onlyFound _ i h
  refine ⟨e, he, ?_⟩
  rcases hkey with hkey | hkey
  · rw [hc.keyed i e he, identity_eq_render_fold] at hkey
    rw [← hc.identity_eq_of_render_eq hw.fold (hc.writable he) hkey, identity_fold]
  · exact hkey.symm

theorem Canonical.lt_size_of_finds (hc : t.Canonical) {i : TypeId} (h : t.Finds ty i) : i < t.size := by
  obtain ⟨e, he, -⟩ := hc.onlyFound _ i h
  exact lt_size_of_entry he

/-- Two types are found at one place exactly when they are alike up to the letter case of class
names. -/
theorem Canonical.finds_eq_iff (hc : t.Canonical) {a b : Ty} (ha : t.Writable a) (hb : t.Writable b)
    {i j : TypeId} (hi : t.Finds a i) (hj : t.Finds b j) :
    i = j ↔ a.Alike (fun x y => x.foldedText = y.foldedText) b := by
  rw [← hc.identity_eq_iff ha hb]
  constructor
  · rintro rfl
    obtain ⟨e, he, hida⟩ := hc.identity_of_finds ha hi
    obtain ⟨f, hf, hidb⟩ := hc.identity_of_finds hb hj
    rw [he] at hf
    cases hf
    rw [← hida, hidb]
  · intro hid
    rw [Finds, ← hid] at hj
    exact hi.unique hj

/-- The second table is canonical and holds what the first one holds and types of the given sort. -/
structure Grows (ok : TypeKind → Prop) (t t' : TypeTable) : Prop where
  canonical : t'.Canonical
  keeps : t.Extends t'
  only : ∀ (i : TypeId) (e : TypeEntry), t'.entries[i]? = some e →
    t.entries[i]? = some e ∨ ok e.type.kind

section

variable {ok : TypeKind → Prop}

theorem Grows.refl (hc : t.Canonical) : t.Grows ok t := ⟨hc, Extends.refl t, fun _ _ => .inl⟩

theorem Grows.trans (h : t.Grows ok t') (k : t'.Grows ok t'') : t.Grows ok t'' where
  canonical := k.canonical
  keeps := h.keeps.trans k.keeps
  only i e he := by
    rcases k.only i e he with he | he
    · exact h.only i e he
    · exact .inr he

theorem Joins.grows (hc : t.Canonical) (hw : t.Writable ty) (hok : ok ty.kind)
    (hnone : t.byKey[t.identity ty]? = none) (h : t.Joins ty t') : t.Grows ok t' where
  canonical := h.canonical hc hw hnone
  keeps := h.extends hc hw hnone
  only i e he := by
    rcases h.entry_cases he with he | ⟨-, rfl⟩
    · exact .inl he
    · exact .inr hok

/-- What a request for a type does: the type is found at the place that is returned. -/
theorem Canonical.place_spec (hc : t.Canonical) (hw : t.Writable ty) (hok : ok ty.kind) :
    t.Grows ok (t.place ty hw.inside).2 ∧
      (t.place ty hw.inside).2.Finds ty (t.place ty hw.inside).1 := by
  rcases place_cases (t := t) ty hw.inside with ⟨id, hid, hp⟩ | ⟨hnone, hfst, hj⟩
  · rw [hp]
    exact ⟨Grows.refl hc, hid⟩
  · have hgrows := hj.grows hc hw hok hnone
    refine ⟨hgrows, ?_⟩
    rw [hfst]
    exact hgrows.canonical.finds_entry hj.entry_new

end

/-! ### The table of built-in types -/

/-- The entry of a built-in type. -/
def nativeEntry (p : NativeKind × Bool) : TypeEntry :=
  ⟨⟨.native p.1, p.2⟩, nullMark p.2 ++ p.1.name⟩

/-- The built-in types in the order in which a new table receives them. -/
def nativeRow : List (NativeKind × Bool) :=
  NativeKind.all.map (fun k => (k, false)) ++
    (NativeKind.all.filter fun k => !k.ignoresNull).map fun k => (k, true)

/-- The table holds just the given built-in types, each under its text. -/
structure HoldsNatives (t : TypeTable) (row : List (NativeKind × Bool)) : Prop where
  entries : t.entries.toList = row.map nativeEntry
  byKey : ∀ (k : String) (i : TypeId),
    t.byKey[k]? = some i ↔ ∃ p, row[i]? = some p ∧ (nativeEntry p).key = k

theorem HoldsNatives.of_entry {row : List (NativeKind × Bool)} (h : t.HoldsNatives row) {i : TypeId}
    {e : TypeEntry} (he : t.entries[i]? = some e) : ∃ p, row[i]? = some p ∧ e = nativeEntry p := by
  rw [← Array.getElem?_toList, h.entries, List.getElem?_map, Option.map_eq_some_iff] at he
  obtain ⟨p, hp, rfl⟩ := he
  exact ⟨p, hp, rfl⟩

theorem HoldsNatives.empty (nullCasts : Bool) :
    HoldsNatives ({ nullCasts := nullCasts } : TypeTable) [] :=
  ⟨rfl, fun k i => by simp⟩

/-- A built-in type whose text is new comes to the end of the row. -/
theorem HoldsNatives.addNative {row : List (NativeKind × Bool)} (h : t.HoldsNatives row)
    {k : NativeKind} {nullable : Bool} (hn : nullable = true → k.ignoresNull = false)
    (hnew : ∀ p ∈ row, (nativeEntry p).key ≠ (nativeEntry (k, nullable)).key) :
    (t.addNative k nullable).HoldsNatives (row ++ [(k, nullable)]) := by
  have hnorm : normalize (.native k) nullable = ⟨.native k, nullable⟩ := by
    cases nullable with
    | false => rfl
    | true => simp [normalize, TypeKind.acceptsNull, hn rfl]
  have hrender : t.render ⟨.native k, nullable⟩ = (nativeEntry (k, nullable)).key := rfl
  have hident : t.identity ⟨.native k, nullable⟩ = (nativeEntry (k, nullable)).key := rfl
  have hnone : t.byKey[t.identity ⟨.native k, nullable⟩]? = none := by
    rw [Option.eq_none_iff_forall_ne_some]
    intro i hi
    obtain ⟨p, hp, hkey⟩ := (h.byKey _ i).1 hi
    exact hnew p (List.mem_of_getElem? hp) hkey
  have hsize : t.size = row.length := by
    rw [size, ← Array.length_toList, h.entries, List.length_map]
  have hjoins : t.Joins ⟨.native k, nullable⟩ (t.addNative k nullable) := by
    rw [TypeTable.addNative]
    simp only [hnorm]
    rcases place_cases (t := t) ⟨.native k, nullable⟩ (by simp [TypeKind.embedded]) with
      ⟨id, hid, -⟩ | ⟨-, -, hj⟩
    · rw [hnone] at hid; cases hid
    · exact hj
  constructor
  · rw [hjoins.entries, Array.toList_push, h.entries, List.map_append]
    rfl
  · intro s i
    rw [hjoins.byKey, hident, hrender, Std.HashMap.getElem?_insert, Std.HashMap.getElem?_insert]
    by_cases hs : (nativeEntry (k, nullable)).key = s
    · rw [if_pos (by simpa using hs), hsize]
      constructor
      · intro hi
        cases hi
        exact ⟨(k, nullable), by simp, hs⟩
      · rintro ⟨p, hp, hkey⟩
        rcases Nat.lt_or_ge i row.length with hlt | hge
        · rw [List.getElem?_append_left hlt] at hp
          exact absurd (hkey.trans hs.symm) (hnew p (List.mem_of_getElem? hp))
        · have hi := (List.getElem?_eq_some_iff.1 hp).1
          rw [List.length_append, List.length_singleton] at hi
          exact congrArg some (Nat.le_antisymm hge (Nat.lt_succ_iff.1 hi))
    · rw [if_neg (by simpa using hs), if_neg (by simpa using hs), h.byKey]
      constructor
      · rintro ⟨p, hp, hkey⟩
        exact ⟨p, List.getElem?_append_left (List.getElem?_eq_some_iff.1 hp).1 ▸ hp, hkey⟩
      · rintro ⟨p, hp, hkey⟩
        rcases Nat.lt_or_ge i row.length with hlt | hge
        · exact ⟨p, List.getElem?_append_left hlt ▸ hp, hkey⟩
        · have hp := List.mem_of_getElem? (List.getElem?_append_right hge ▸ hp)
          rw [List.mem_singleton] at hp
          exact absurd (hp ▸ hkey) hs

theorem HoldsNatives.foldl {row : List (NativeKind × Bool)} (h : t.HoldsNatives row)
    (more : List (NativeKind × Bool)) (hn : ∀ p ∈ more, p.2 = true → p.1.ignoresNull = false)
    (hnew : ((row ++ more).map fun p => (nativeEntry p).key).Nodup) :
    (more.foldl (fun t p => t.addNative p.1 p.2) t).HoldsNatives (row ++ more) := by
  induction more generalizing t row with
  | nil => rwa [List.append_nil]
  | cons p more ih =>
    rw [List.append_cons] at hnew ⊢
    have hfresh : ∀ q ∈ row, (nativeEntry q).key ≠ (nativeEntry p).key := by
      intro q hq
      rw [List.map_append, List.nodup_append] at hnew
      have := hnew.1
      rw [List.map_append, List.nodup_append] at this
      exact this.2.2 _ (List.mem_map.2 ⟨q, hq, rfl⟩) _ (by simp)
    exact ih (h.addNative (hn p (by simp)) hfresh) (fun q hq => hn q (by simp [hq])) hnew

theorem initial_eq_foldl (nullCasts : Bool) :
    initial nullCasts = nativeRow.foldl (fun t p => t.addNative p.1 p.2)
      ({ nullCasts := nullCasts } : TypeTable) := by
  rw [initial, nativeRow, List.foldl_append, List.foldl_map, List.foldl_map, List.foldl_filter]
  congr 1
  funext t k
  cases k.ignoresNull <;> rfl

theorem cache_addNative (t : TypeTable) (k : NativeKind) (nullable : Bool) :
    (t.addNative k nullable).cache = t.cache := cache_place _ _

theorem cache_initial (nullCasts : Bool) : (initial nullCasts).cache = {} := by
  have hfold : ∀ (row : List (NativeKind × Bool)) (t : TypeTable),
      (row.foldl (fun t p => t.addNative p.1 p.2) t).cache = t.cache := by
    intro row
    induction row with
    | nil => exact fun _ => rfl
    | cons p row ih => exact fun t => (ih _).trans (cache_addNative t p.1 p.2)
  rw [initial_eq_foldl, hfold]

theorem holdsNatives_initial (nullCasts : Bool) : (initial nullCasts).HoldsNatives nativeRow := by
  rw [initial_eq_foldl]
  exact (HoldsNatives.empty nullCasts).foldl nativeRow (by decide) (by decide)

/-- A new table is canonical. -/
theorem canonical_initial (nullCasts : Bool) : (initial nullCasts).Canonical := by
  have h := holdsNatives_initial nullCasts
  have hmem : ∀ {i : TypeId} {p : NativeKind × Bool}, nativeRow[i]? = some p →
      (initial nullCasts).entries[i]? = some (nativeEntry p) := by
    intro i p hp
    rw [← Array.getElem?_toList, h.entries, List.getElem?_map, hp]
    rfl
  constructor
  case keyed =>
    intro i e he
    obtain ⟨p, -, rfl⟩ := h.of_entry he
    rfl
  case keyFound =>
    intro i e he
    obtain ⟨p, hp, rfl⟩ := h.of_entry he
    exact (h.byKey _ i).2 ⟨p, hp, rfl⟩
  case identityFound =>
    intro i e he
    obtain ⟨p, hp, rfl⟩ := h.of_entry he
    exact (h.byKey _ i).2 ⟨p, hp, rfl⟩
  case onlyFound =>
    intro k i hk
    obtain ⟨p, hp, rfl⟩ := (h.byKey _ i).1 hk
    exact ⟨_, hmem hp, .inl rfl⟩
  case normal =>
    intro i e he
    obtain ⟨p, hp, rfl⟩ := h.of_entry he
    have hall : ∀ q ∈ nativeRow, q.2 = true → (TypeKind.native q.1).acceptsNull = true := by decide
    exact hall p (List.mem_of_getElem? hp)
  case named =>
    intro i e he
    obtain ⟨p, -, rfl⟩ := h.of_entry he
    trivial
  case natives =>
    intro k
    exact hmem (p := (k, false)) (by cases k <;> rfl)

theorem writable_normalize {kind : TypeKind} (nullable : Bool)
    (hin : ∀ e ∈ kind.embedded, e < t.size) (hn : kind.WellNamed) :
    t.Writable (normalize kind nullable) where
  inside := hin
  normal h := by
    simp only [normalize, Bool.and_eq_true] at h
    exact h.2
  named := hn

end TypeTable

/-! ### Requests -/

namespace TypeM

variable {t t' : TypeTable} {ok : TypeKind → Prop}

/-- A type whose parts the table holds is found at the place that is returned for it. -/
theorem intern_spec (hc : t.Canonical) {kind : TypeKind} (nullable : Bool) (hn : kind.WellNamed)
    (hok : ok kind) (hin : ∀ e ∈ kind.embedded, e < t.size) :
    ∃ id t', intern kind nullable t = .ok (id, t') ∧ t.Grows ok t' ∧
      t'.Finds (TypeTable.normalize kind nullable) id := by
  obtain ⟨hgrows, hfinds⟩ :=
    hc.place_spec (TypeTable.writable_normalize nullable hin hn) hok
  exact ⟨_, _, dif_pos hin, hgrows, hfinds⟩

theorem bind_apply {α β : Type} (m : TypeM α) (f : α → TypeM β) (t : TypeTable) :
    (m >>= f) t = (m t >>= fun p => f p.1 p.2) := rfl

/-- A computation in two parts gives a result exactly when both parts do. -/
theorem bind_eq_ok {α β : Type} {m : TypeM α} {f : α → TypeM β} {r : β × TypeTable} :
    (m >>= f) t = .ok r ↔ ∃ a t', m t = .ok (a, t') ∧ f a t' = .ok r := by
  constructor
  · intro h
    cases hm : m t with
    | error v => rw [bind_apply, hm] at h; cases h
    | ok p => exact ⟨p.1, p.2, rfl, by rwa [bind_apply, hm] at h⟩
  · rintro ⟨a, t', hm, hf⟩
    rw [bind_apply, hm]
    exact hf

theorem fetch_eq_ok {id : TypeId} {ty : Ty} : fetch id t = .ok (ty, t') ↔
    t' = t ∧ ∃ e, t.entries[id]? = some e ∧ e.type = ty := by
  rw [fetch, query]
  rcases Nat.lt_or_ge id t.size with hlt | hge
  · obtain ⟨e, he⟩ := TypeTable.exists_entry hlt
    rw [TypeTable.fetch_eq he]
    constructor
    · intro h
      cases h
      exact ⟨rfl, e, he, rfl⟩
    · rintro ⟨rfl, f, hf, rfl⟩
      rw [he] at hf
      cases hf
      rfl
  · rw [TypeTable.fetch_eq_error hge]
    constructor
    · intro h; cases h
    · rintro ⟨-, e, he, -⟩
      exact absurd (TypeTable.lt_size_of_entry he) (Nat.not_lt.2 hge)

theorem inside_of_intern {kind : TypeKind} {nullable : Bool} {r : TypeId × TypeTable}
    (h : intern kind nullable t = .ok r) : ∀ e ∈ kind.embedded, e < t.size := by
  rw [intern] at h
  split at h
  · assumption
  · cases h

theorem cache_of_intern {kind : TypeKind} {nullable : Bool} {r : TypeId × TypeTable}
    (h : intern kind nullable t = .ok r) : r.2.cache = t.cache := by
  unfold intern at h
  split at h
  · cases h
    exact TypeTable.cache_place _ _
  · cases h

theorem grows_of_intern (hc : t.Canonical) {kind : TypeKind} {nullable : Bool} (hn : kind.WellNamed)
    (hok : ok kind) {id : TypeId} (h : intern kind nullable t = .ok (id, t')) : t.Grows ok t' := by
  obtain ⟨id', t'', heq, hgrows, -⟩ := intern_spec hc nullable hn hok (inside_of_intern h)
  rw [heq] at h
  cases h
  exact hgrows

/-- A type that is found is not added again. -/
theorem intern_of_finds {kind : TypeKind} {nullable : Bool} {id : TypeId}
    (hin : ∀ e ∈ kind.embedded, e < t.size)
    (h : t.Finds (TypeTable.normalize kind nullable) id) :
    intern kind nullable t = .ok (id, t) := by
  rw [intern, dif_pos hin]
  rcases TypeTable.place_cases (t := t) (TypeTable.normalize kind nullable) hin with
    ⟨id', hid, hp⟩ | ⟨hnone, -⟩
  · rw [hp, h.unique hid]
  · rw [TypeTable.Finds, hnone] at h
    cases h

end TypeM

/-- A request for a type. Shapes, literals and callable types are asked for by what they are. -/
inductive TypeRequest where
  | intern (kind : TypeKind) (nullable : Bool)
  | native (kind : NativeKind) (nullable : Bool)
  | make (space name : String) (args : List UnionType) (nullable : Bool)
  | classType (name : ClassName) (args : List UnionType)
  | array (key : KeyKind) (element : TypeId) (nullable : Bool)
  | template (name : String)
  | withNull (id : TypeId) (nullable : Bool)
  | widenLiteral (id : TypeId)

namespace TypeRequest

/-- Carries out a request. -/
def run : TypeRequest → TypeM TypeId
  | .intern kind nullable => TypeM.intern kind nullable
  | .native kind nullable => TypeM.native kind nullable
  | .make space name args nullable => TypeM.make space name args nullable
  | .classType name args => TypeM.classTypeWith name args
  | .array key element nullable => TypeM.array key element nullable
  | .template name => TypeM.template name
  | .withNull id nullable => TypeM.withNull id nullable
  | .widenLiteral id => TypeM.widenLiteral id

/-- The kind of type that is asked for, unless it is one that the table holds or a built-in one. -/
def kind? : TypeRequest → Option TypeKind
  | .intern kind _ => some kind
  | .make space name args _ => some (.object (.make space name) args)
  | .classType name args => some (.object (.make name.space name.name) args)
  | .array key element _ => some (.array key element)
  | .template name => some (.template name)
  | .native .. | .withNull .. | .widenLiteral _ => none

variable {t t' : TypeTable} {ok : TypeKind → Prop}

/-- A request that is granted either finds what the table holds, or asks for a type by its kind. -/
theorem run_cases {r : TypeRequest} {id : TypeId} (h : r.run t = .ok (id, t')) :
    t' = t ∨ ∃ kind nullable, TypeM.intern kind nullable t = .ok (id, t') ∧
      (r.kind? = some kind ∨ (∃ k, kind = .native k) ∨
        ∃ (i : TypeId) (e : TypeEntry), t.entries[i]? = some e ∧ e.type.kind = kind) := by
  have hnative : ∀ k nullable, TypeM.native k nullable t = .ok (id, t') →
      t' = t ∨ ∃ kind nullable, TypeM.intern kind nullable t = .ok (id, t') ∧ ∃ k, kind = .native k := by
    intro k nullable h
    cases nullable with
    | false => cases h; exact .inl rfl
    | true => exact .inr ⟨.native k, true, h, k, rfl⟩
  have hmake : ∀ space name args nullable, TypeM.make space name args nullable t = .ok (id, t') →
      TypeM.intern (.object (.make space name) args) nullable t = .ok (id, t') := by
    intro space name args nullable h
    rw [TypeM.make] at h
    split_ifs at h
    · cases h
    · cases h
    · cases h
    · cases h
    · exact h
  cases r with
  | intern kind nullable => exact .inr ⟨kind, nullable, h, .inl rfl⟩
  | native k nullable =>
    rcases hnative k nullable h with h | ⟨kind, n, h, hk⟩
    · exact .inl h
    · exact .inr ⟨kind, n, h, .inr (.inl hk)⟩
  | make space name args nullable => exact .inr ⟨_, _, hmake _ _ _ _ h, .inl rfl⟩
  | classType name args => exact .inr ⟨_, _, hmake _ _ _ _ h, .inl rfl⟩
  | array key element nullable => exact .inr ⟨_, _, h, .inl rfl⟩
  | template name =>
    rw [run, TypeM.template] at h
    split_ifs at h
    · cases h
    · cases h
    · exact .inr ⟨_, _, h, .inl rfl⟩
  | withNull i nullable =>
    obtain ⟨ty, t₁, hf, h⟩ := TypeM.bind_eq_ok.1 h
    obtain ⟨rfl, e, he, rfl⟩ := TypeM.fetch_eq_ok.1 hf
    split_ifs at h
    · cases h; exact .inl rfl
    · exact .inr ⟨_, _, h, .inr (.inr ⟨i, e, he, rfl⟩)⟩
  | widenLiteral i =>
    obtain ⟨ty, t₁, hf, h⟩ := TypeM.bind_eq_ok.1 h
    obtain ⟨rfl, e, he, rfl⟩ := TypeM.fetch_eq_ok.1 hf
    obtain ⟨⟨kind, nullable⟩, key⟩ := e
    cases kind with
    | intLiteral n | stringLiteral n =>
      rcases hnative _ _ h with h | ⟨kind, n, h, hk⟩
      · exact .inl h
      · exact .inr ⟨kind, n, h, .inr (.inl hk)⟩
    | _ => cases h; exact .inl rfl

end TypeRequest

/-- A sort of types that covers the built-in ones and is told apart by names. -/
structure TypeSort (ok : TypeKind → Prop) : Prop where
  wellNamed : ∀ kind, ok kind → kind.WellNamed
  natives : ∀ k, ok (.native k)

theorem typeSort_wellNamed : TypeSort TypeKind.WellNamed := ⟨fun _ => id, fun _ => trivial⟩

/-- The names of classes are divided as reading their texts divides them. -/
def TypeKind.Divided : TypeKind → Prop
  | .object name _ => name.Divided
  | _ => True

/-- All class types of the table have divided names. -/
def TypeTable.NamesDivided (t : TypeTable) : Prop :=
  ∀ (i : TypeId) (e : TypeEntry), t.entries[i]? = some e → e.type.kind.Divided

namespace TypeTable

/-- A row of requests for types of the given sort leads from the first table to the second. -/
inductive Reaches (ok : TypeKind → Prop) (t : TypeTable) : TypeTable → Prop
  | refl : Reaches ok t t
  | step {t' t'' : TypeTable} {r : TypeRequest} {id : TypeId} : Reaches ok t t' →
      (∀ kind, r.kind? = some kind → ok kind) → r.run t' = .ok (id, t'') → Reaches ok t t''

/-- A row of requests for types of the given sort leads from a new table to this one. -/
def Reachable (ok : TypeKind → Prop) (t : TypeTable) : Prop :=
  ∃ nullCasts, Reaches ok (initial nullCasts) t


section

variable {t t' : TypeTable} {ok : TypeKind → Prop}

/-- One request keeps a canonical table canonical and moves nothing. -/
theorem Canonical.grows_of_run (hok : TypeSort ok) (hc : t.Canonical)
    (hall : ∀ (i : TypeId) (e : TypeEntry), t.entries[i]? = some e → ok e.type.kind) {r : TypeRequest}
    (hr : ∀ kind, r.kind? = some kind → ok kind) {id : TypeId} (h : r.run t = .ok (id, t')) :
    t.Grows ok t' := by
  rcases TypeRequest.run_cases h with rfl | ⟨kind, nullable, h, hkind⟩
  · exact Grows.refl hc
  · have hk : ok kind := by
      rcases hkind with hkind | ⟨k, rfl⟩ | ⟨i, e, he, rfl⟩
      · exact hr kind hkind
      · exact hok.natives k
      · exact hall i e he
    exact TypeM.grows_of_intern hc (hok.wellNamed kind hk) hk h

/-- A row of requests keeps a canonical table canonical and moves nothing. -/
theorem Reaches.grows (hok : TypeSort ok) (hc : t.Canonical)
    (hall : ∀ (i : TypeId) (e : TypeEntry), t.entries[i]? = some e → ok e.type.kind)
    (h : Reaches ok t t') : t.Grows ok t' := by
  induction h with
  | refl => exact Grows.refl hc
  | step _ hr hrun ih =>
    refine ih.trans (ih.canonical.grows_of_run hok (fun i e he => ?_) hr hrun)
    rcases ih.only i e he with he | he
    · exact hall i e he
    · exact he

theorem Reachable.grows (hok : TypeSort ok) (h : Reachable ok t) :
    ∃ nullCasts, (initial nullCasts).Grows ok t := by
  obtain ⟨nullCasts, h⟩ := h
  refine ⟨nullCasts, h.grows hok (canonical_initial nullCasts) fun i e he => ?_⟩
  obtain ⟨p, -, rfl⟩ := (holdsNatives_initial nullCasts).of_entry he
  exact hok.natives p.1

theorem Reachable.canonical (hok : TypeSort ok) (h : Reachable ok t) : t.Canonical := by
  obtain ⟨_, hgrows⟩ := h.grows hok
  exact hgrows.canonical

/-- Every type of the table is of the sort that was asked for. -/
theorem Reachable.kind_ok (hok : TypeSort ok) (h : Reachable ok t) {i : TypeId} {e : TypeEntry}
    (he : t.entries[i]? = some e) : ok e.type.kind := by
  obtain ⟨nullCasts, hgrows⟩ := h.grows hok
  rcases hgrows.only i e he with he | he
  · obtain ⟨p, -, rfl⟩ := (holdsNatives_initial nullCasts).of_entry he
    exact hok.natives p.1
  · exact he

/-- What the table holds is found where it stands, under its own text and by what it is. -/
theorem Canonical.self_found (hc : t.Canonical) {i : TypeId} (hi : i < t.size) :
    ∃ ty key, t.get? i = some ty ∧ t.typeKey i = .ok key ∧ t.lookup key = some i ∧
      TypeM.intern ty.kind ty.nullable t = .ok (i, t) := by
  obtain ⟨e, he⟩ := exists_entry hi
  have hkey : t.typeKey i = .ok e.key := by rw [typeKey, if_pos hi, key_eq he]
  have hnorm : normalize e.type.kind e.type.nullable = e.type := by
    have := hc.normal i e he
    cases hn : e.type.nullable with
    | false => rw [normalize, Bool.false_and, ← hn]
    | true => rw [normalize, this hn, Bool.and_true, ← hn]
  refine ⟨e.type, e.key, get?_eq he, hkey, hc.keyFound i e he, ?_⟩
  exact TypeM.intern_of_finds (hc.writable he).inside (hnorm.symm ▸ hc.finds_entry he)

theorem display_eq_ok {u : UnionType} (hu : ∀ i ∈ u.members, i < t.size) :
    u.display t = .ok (t.renderUnion u) := by
  have hnone : u.members.find? (fun i => decide (t.size ≤ i)) = none := by
    rw [List.find?_eq_none]
    intro i hi hle
    exact absurd (hu i hi) (Nat.not_lt.2 (of_decide_eq_true hle))
  rw [UnionType.display, hnone]

theorem Extends.typeKey_eq (h : t.Extends t') {i : TypeId} (hi : i < t.size) :
    t'.typeKey i = t.typeKey i := by
  rw [typeKey, typeKey, if_pos hi, if_pos (h.lt_size hi), h.key_eq hi]

/-- Interning is canonical. Two requests, however far apart, get the same place exactly when what
they ask for is the same up to the letter case of class names, the order of members, a parameter
without a type standing for all values, and a mark for null where it says nothing. What a table
holds is found where it stands, texts tell types and unions apart, and later requests change
nothing. -/
theorem interning_canonical (h : Reachable TypeKind.WellNamed t) :
    (∀ k₁ n₁, k₁.WellNamed → (∀ e ∈ k₁.embedded, e < t.size) →
      ∃ i t₁, TypeM.intern k₁ n₁ t = .ok (i, t₁) ∧
        ∀ t₂, Reaches TypeKind.WellNamed t₁ t₂ →
          ∀ k₂ n₂, k₂.WellNamed → (∀ e ∈ k₂.embedded, e < t₂.size) →
            ∃ j t₃, TypeM.intern k₂ n₂ t₂ = .ok (j, t₃) ∧
              (i = j ↔ (normalize k₁ n₁).Alike (fun x y => x.foldedText = y.foldedText)
                (normalize k₂ n₂))) ∧
    (∀ i < t.size, ∃ ty key, t.get? i = some ty ∧ t.typeKey i = .ok key ∧ t.lookup key = some i ∧
      TypeM.intern ty.kind ty.nullable t = .ok (i, t)) ∧
    (∀ i < t.size, ∀ j < t.size, t.typeKey i = t.typeKey j → i = j) ∧
    (∀ u v : UnionType, (∀ i ∈ u.members, i < t.size) → (∀ i ∈ v.members, i < t.size) →
      (u.display t = v.display t ↔ u.SameMembers v)) ∧
    (∀ t', Reaches TypeKind.WellNamed t t' → ∀ i < t.size,
      t'.get? i = t.get? i ∧ t'.typeKey i = t.typeKey i) := by
  have hc := h.canonical typeSort_wellNamed
  refine ⟨?_, fun i => hc.self_found, ?_, ?_, ?_⟩
  · intro k₁ n₁ hk₁ hin₁
    obtain ⟨i, t₁, hrun₁, hgrows₁, hfinds₁⟩ := TypeM.intern_spec hc n₁ hk₁ hk₁ hin₁
    refine ⟨i, t₁, hrun₁, ?_⟩
    intro t₂ hreach k₂ n₂ hk₂ hin₂
    have hgrows₂ := hreach.grows typeSort_wellNamed hgrows₁.canonical hgrows₁.canonical.named
    obtain ⟨j, t₃, hrun₂, hgrows₃, hfinds₂⟩ := TypeM.intern_spec hgrows₂.canonical n₂ hk₂ hk₂ hin₂
    refine ⟨j, t₃, hrun₂, ?_⟩
    have hlater := hgrows₂.keeps.trans hgrows₃.keeps
    have hin₁' : ∀ e ∈ k₁.embedded, e < t₁.size := fun e he => hgrows₁.keeps.lt_size (hin₁ e he)
    refine hgrows₃.canonical.finds_eq_iff ?_ ?_ (hfinds₁.extends hin₁' hlater) hfinds₂
    · exact writable_normalize n₁ (fun e he => hlater.lt_size (hin₁' e he)) hk₁
    · exact writable_normalize n₂ (fun e he => hgrows₃.keeps.lt_size (hin₂ e he)) hk₂
  · intro i hi j hj hkey
    rw [typeKey, typeKey, if_pos hi, if_pos hj] at hkey
    exact hc.key_injective hi hj (Except.ok.inj hkey)
  · intro u v hu hv
    rw [display_eq_ok hu, display_eq_ok hv, ← hc.renderUnion_eq_iff hu hv]
    exact ⟨Except.ok.inj, congrArg _⟩
  · intro t' hreach i hi
    have hgrows := hreach.grows typeSort_wellNamed hc hc.named
    exact ⟨hgrows.keeps.get?_eq hi, hgrows.keeps.typeKey_eq hi⟩

/-- A class asked for in other letter case gets the place that it has, and its nullable variant
another one. -/
theorem interning_canonical_letter_case :
    ∃ i t₁, TypeM.intern (.object (.make "\\App" "Item") []) false (initial false) = .ok (i, t₁) ∧
      (∃ j t₂, TypeM.intern (.object (.make "\\APP" "item") []) false t₁ = .ok (j, t₂) ∧ i = j) ∧
      ∃ j t₂, TypeM.intern (.object (.make "\\App" "Item") []) true t₁ = .ok (j, t₂) ∧ i ≠ j := by
  have hname : (QualifiedName.make "\\App" "Item").WellFormed :=
    ⟨["App".toList, "Item".toList], by decide, by decide, by decide⟩
  have hfolded : (QualifiedName.make "\\APP" "item").WellFormed :=
    ⟨["APP".toList, "item".toList], by decide, by decide, by decide⟩
  obtain ⟨i, t₁, hrun, hlater⟩ := (interning_canonical ⟨false, .refl⟩).1
    (.object (.make "\\App" "Item") []) false hname (by simp [TypeKind.embedded])
  refine ⟨i, t₁, hrun, ?_, ?_⟩
  · obtain ⟨j, t₂, hrun₂, hiff⟩ := hlater t₁ .refl (.object (.make "\\APP" "item") []) false hfolded
      (by simp [TypeKind.embedded])
    exact ⟨j, t₂, hrun₂, hiff.2 ⟨rfl, by decide, .nil⟩⟩
  · obtain ⟨j, t₂, hrun₂, hiff⟩ := hlater t₁ .refl (.object (.make "\\App" "Item") []) true hname
      (by simp [TypeKind.embedded])
    exact ⟨j, t₂, hrun₂, fun hij => absurd (hiff.1 hij).1 (by decide)⟩

end

end TypeTable

end UnionInference
