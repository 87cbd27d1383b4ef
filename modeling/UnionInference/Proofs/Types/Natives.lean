import UnionInference.Proofs.Types.Parts

/-!
The built-in types in a table. Whatever is asked of a new table, its built-in types stay where they
are and are found under their texts, since no other type is written like one of them. Whether null
may stand for any value is a matter of the mode of a table: it changes none of its types, and no
request for a type looks at it.
-/

namespace UnionInference

theorem QualifiedName.mem_text_backslash (q : QualifiedName) : '\\' ∈ q.text.toList := by
  rw [text]
  split
  · rw [String.toList_append]
    exact List.mem_append_left _ (by decide)
  · rw [String.toList_append, String.toList_append]
    exact List.mem_append_left _ (List.mem_append_right _ (by decide))

theorem TypeTable.nullCasts_place (t : TypeTable) (ty : Ty) (h : ∀ e ∈ ty.kind.embedded, e < t.size) :
    (t.place ty h).2.nullCasts = t.nullCasts := by
  rw [place.eq_def]
  split <;> rfl

/-- What a request for a type does: it finds the type, or the type joins the table. -/
theorem TypeM.intern_cases {t t₁ : TypeTable} {kind : TypeKind} {nullable : Bool} {i : TypeId}
    (h : intern kind nullable t = .ok (i, t₁)) :
    (t.Finds (TypeTable.normalize kind nullable) i ∧ t₁ = t) ∨
      (t.byKey[t.identity (TypeTable.normalize kind nullable)]? = none ∧ i = t.size ∧
        t.Joins (TypeTable.normalize kind nullable) t₁ ∧ t₁.cache = t.cache ∧
        t₁.nullCasts = t.nullCasts) := by
  have hin := inside_of_intern h
  rw [intern, dif_pos hin] at h
  have hcache := TypeTable.cache_place (t := t) (TypeTable.normalize kind nullable) hin
  have hmode := t.nullCasts_place (TypeTable.normalize kind nullable) hin
  rcases TypeTable.place_cases (t := t) (TypeTable.normalize kind nullable) hin with
    ⟨j, hj, hplace⟩ | ⟨hnone, hfst, hjoins⟩
  · rw [hplace] at h
    cases h
    exact .inl ⟨hj, rfl⟩
  · obtain ⟨hid, rfl⟩ := Prod.ext_iff.1 (Except.ok.inj h)
    exact .inr ⟨hnone, hid.symm.trans hfst, hjoins, hcache, hmode⟩

namespace TypeTable

variable {ok : TypeKind → Prop} {t t₁ : TypeTable} {ty : Ty} {i j : TypeId}

/-! ### Built-in types -/

/-- The built-in types stand where a new table holds them and are found there. -/
structure Rooted (t : TypeTable) : Prop where
  entries : ∀ (i : TypeId) (p : NativeKind × Bool), nativeRow[i]? = some p →
    t.entries[i]? = some (nativeEntry p)
  byKey : ∀ (i : TypeId) (p : NativeKind × Bool), nativeRow[i]? = some p →
    t.byKey[(nativeEntry p).key]? = some i

theorem rooted_initial (nullCasts : Bool) : (initial nullCasts).Rooted := by
  have h := holdsNatives_initial nullCasts
  refine ⟨fun i p hp => ?_, fun i p hp => (h.byKey _ i).2 ⟨p, hp, rfl⟩⟩
  rw [← Array.getElem?_toList, h.entries, List.getElem?_map, hp]
  rfl

theorem backslash_not_mem_nativeEntry (p : NativeKind × Bool) :
    '\\' ∉ (nativeEntry p).key.toList := by
  obtain ⟨k, nullable⟩ := p
  cases nullable <;> cases k <;> decide

theorem backslash_mem_render (t : TypeTable) (name : ClassName) (args : List UnionType)
    (nullable : Bool) : '\\' ∈ (t.render ⟨.object name args, nullable⟩).toList := by
  rw [render, String.toList_append]
  refine List.mem_append_right _ ?_
  rw [renderKind, renderClass]
  split
  · exact name.mem_text_backslash
  · simp only [String.toList_append, List.append_assoc]
    exact List.mem_append_left _ name.mem_text_backslash

/-- No other type takes over the text of a built-in one. -/
theorem Rooted.joins (ht : t.Rooted) (hnone : t.byKey[t.identity ty]? = none) (h : t.Joins ty t₁) :
    t₁.Rooted := by
  refine ⟨fun i p hp => h.entry_old (ht.entries i p hp), fun i p hp => ?_⟩
  have hident : t.identity ty ≠ (nativeEntry p).key := by
    intro heq
    rw [heq, ht.byKey i p hp] at hnone
    cases hnone
  have hrender : t.render ty ≠ (nativeEntry p).key := by
    intro heq
    obtain ⟨kind, nullable⟩ := ty
    cases kind with
    | object name args =>
      exact backslash_not_mem_nativeEntry p (heq ▸ backslash_mem_render t name args nullable)
    | _ => exact hident heq
  rw [h.byKey_eq, if_neg (not_or.2 ⟨hrender, hident⟩)]
  exact ht.byKey i p hp

/-- A request keeps what the table holds, and its built-in types. -/
theorem Rooted.run (ht : t.Rooted) {r : TypeRequest} (h : r.run t = .ok (i, t₁)) :
    t₁.Rooted ∧ t.Keeps t₁ := by
  rcases TypeRequest.run_cases h with rfl | ⟨kind, nullable, h, -⟩
  · exact ⟨ht, .refl t₁⟩
  · rcases TypeM.intern_cases h with ⟨-, rfl⟩ | ⟨hnone, -, hjoins, -⟩
    · exact ⟨ht, .refl t₁⟩
    · exact ⟨ht.joins hnone hjoins, hjoins.keeps⟩

theorem Reachable.rooted (h : Reachable ok t) : t.Rooted := by
  obtain ⟨nullCasts, h⟩ := h
  induction h with
  | refl => exact rooted_initial nullCasts
  | step _ _ hrun ih => exact (ih.run hrun).1

theorem Rooted.get?_native (ht : t.Rooted) (k : NativeKind) :
    t.get? k.id = some ⟨.native k, false⟩ :=
  get?_eq (ht.entries k.id (k, false) (by cases k <;> rfl))

theorem Rooted.native_lt_size (ht : t.Rooted) (k : NativeKind) : k.id < t.size :=
  lt_size_of_get? (ht.get?_native k)

/-- A built-in type is found, with null or without, and nothing joins the table. -/
theorem Rooted.native (ht : t.Rooted) {k : NativeKind} (hk : k.ignoresNull = false)
    (nullable : Bool) :
    ∃ i, TypeM.native k nullable t = .ok (i, t) ∧ t.get? i = some ⟨.native k, nullable⟩ := by
  cases nullable with
  | false => exact ⟨k.id, rfl, ht.get?_native k⟩
  | true =>
    obtain ⟨i, hi⟩ : ∃ i, nativeRow[i]? = some (k, true) := by
      refine List.getElem?_of_mem (List.mem_append_right _ (List.mem_map.2 ⟨k, ?_, rfl⟩))
      cases k <;> first | decide | cases hk
    have hnorm : normalize (.native k) true = ⟨.native k, true⟩ := by
      simp [normalize, TypeKind.acceptsNull, hk]
    have hin : ∀ e ∈ (TypeKind.native k).embedded, e < t.size := by simp [TypeKind.embedded]
    have hfinds : t.Finds (normalize (.native k) true) i := by
      rw [hnorm]
      exact ht.byKey i (k, true) hi
    exact ⟨i, TypeM.intern_of_finds hin hfinds, get?_eq (ht.entries i _ hi)⟩

/-! ### The mode of a table -/

/-- The same table, in which null may stand for a value of any type or may not. -/
def inMode (t : TypeTable) (nullCasts : Bool) : TypeTable := { t with nullCasts := nullCasts }

variable {mode : Bool}

@[simp] theorem nullCasts_inMode : (t.inMode mode).nullCasts = mode := rfl

@[simp] theorem size_inMode : (t.inMode mode).size = t.size := rfl

@[simp] theorem get?_inMode : (t.inMode mode).get? i = t.get? i := rfl

theorem Rooted.inMode (ht : t.Rooted) (mode : Bool) : (t.inMode mode).Rooted :=
  ⟨ht.entries, ht.byKey⟩

theorem place_inMode (ty : Ty) (h : ∀ e ∈ ty.kind.embedded, e < t.size)
    (h' : ∀ e ∈ ty.kind.embedded, e < (t.inMode mode).size) :
    (t.inMode mode).place ty h' = ((t.place ty h).1, (t.place ty h).2.inMode mode) := by
  have hkey : (t.inMode mode).byKey[(t.inMode mode).identity ty]? = t.byKey[t.identity ty]? := rfl
  cases hfound : t.byKey[t.identity ty]? with
  | some i => simp only [place.eq_def, hfound, hkey]
  | none =>
    simp only [place.eq_def, hfound, hkey]
    rfl

theorem addNative_inMode (t : TypeTable) (k : NativeKind) (nullable : Bool) :
    (t.inMode mode).addNative k nullable = (t.addNative k nullable).inMode mode := by
  exact congrArg Prod.snd (place_inMode (t := t) (normalize (.native k) nullable) _ _)

theorem foldl_inMode {f : TypeTable → NativeKind → TypeTable}
    (h : ∀ t k, f (t.inMode mode) k = (f t k).inMode mode) (t : TypeTable) (ks : List NativeKind) :
    ks.foldl f (t.inMode mode) = (ks.foldl f t).inMode mode :=
  List.foldl_hom (fun t : TypeTable => t.inMode mode) h

theorem inMode_initial (nullCasts : Bool) : (initial nullCasts).inMode mode = initial mode := by
  rw [initial, initial, ← foldl_inMode, ← foldl_inMode]
  · rfl
  · exact fun t k => addNative_inMode t k false
  · intro t k
    split
    · rfl
    · exact addNative_inMode t k true

end TypeTable

namespace TypeM

variable {α β : Type}

/-- Work that never looks at the mode of the table. -/
def Modeless (m : TypeM α) : Prop :=
  ∀ (t t₁ : TypeTable) (a : α) (mode : Bool), m t = .ok (a, t₁) →
    m (t.inMode mode) = .ok (a, t₁.inMode mode)

theorem modeless_pure (a : α) : Modeless (pure a) := by
  rintro t _ _ mode ⟨⟩
  rfl

theorem modeless_throw (v : Violation) : Modeless (throw v : TypeM α) := by
  rintro t _ _ mode ⟨⟩

theorem Modeless.bind {m : TypeM α} {f : α → TypeM β} (hm : Modeless m)
    (hf : ∀ a, Modeless (f a)) : Modeless (m >>= f) := by
  intro t t₁ b mode h
  obtain ⟨a, t', ha, hb⟩ := bind_eq_ok.1 h
  exact bind_eq_ok.2 ⟨a, _, hm _ _ _ mode ha, hf a _ _ _ mode hb⟩

theorem modeless_fetch (i : TypeId) : Modeless (fetch i) := by
  intro t t₁ ty mode h
  obtain ⟨rfl, he⟩ := fetch_eq_ok.1 h
  exact fetch_eq_ok.2 ⟨rfl, he⟩

theorem modeless_intern (kind : TypeKind) (nullable : Bool) : Modeless (intern kind nullable) := by
  intro t t₁ i mode h
  have hin := inside_of_intern h
  rw [intern, dif_pos hin] at h
  have hin' : ∀ e ∈ kind.embedded, e < (t.inMode mode).size := hin
  rw [intern, dif_pos hin', TypeTable.place_inMode _ hin hin', Except.ok.inj h]

theorem modeless_native (k : NativeKind) (nullable : Bool) : Modeless (native k nullable) := by
  rw [native]
  split
  · exact modeless_intern _ _
  · exact modeless_pure _

theorem modeless_make (space name : String) (args : List UnionType) (nullable : Bool) :
    Modeless (make space name args nullable) := by
  rw [make]
  split
  · exact modeless_throw _
  split
  · exact modeless_throw _
  split
  · exact modeless_throw _
  split
  · exact modeless_throw _
  · exact modeless_intern _ _

theorem modeless_template (name : String) : Modeless (template name) := by
  rw [template]
  split
  · exact modeless_throw _
  split
  · exact modeless_throw _
  · exact modeless_intern _ _

theorem modeless_withNull (i : TypeId) (nullable : Bool) : Modeless (withNull i nullable) := by
  refine (modeless_fetch i).bind fun ty => ?_
  split
  · exact modeless_pure i
  · exact modeless_intern _ _

theorem modeless_widenLiteral (i : TypeId) : Modeless (widenLiteral i) := by
  refine (modeless_fetch i).bind fun ty => ?_
  split
  · exact modeless_native _ _
  · exact modeless_native _ _
  · exact modeless_pure i

end TypeM

theorem TypeRequest.modeless (r : TypeRequest) : TypeM.Modeless r.run := by
  cases r with
  | intern kind nullable => exact TypeM.modeless_intern kind nullable
  | native k nullable => exact TypeM.modeless_native k nullable
  | make space name args nullable => exact TypeM.modeless_make space name args nullable
  | classType name args => exact TypeM.modeless_make _ _ args false
  | array key i nullable => exact TypeM.modeless_intern _ nullable
  | template name => exact TypeM.modeless_template name
  | withNull i nullable => exact TypeM.modeless_withNull i nullable
  | widenLiteral i => exact TypeM.modeless_widenLiteral i

/-- The same requests lead to the same table in the other mode. -/
theorem TypeTable.Reachable.inMode {ok : TypeKind → Prop} {t : TypeTable} (h : Reachable ok t)
    (mode : Bool) : Reachable ok (t.inMode mode) := by
  obtain ⟨nullCasts, h⟩ := h
  refine ⟨mode, ?_⟩
  induction h with
  | refl =>
    rw [inMode_initial]
    exact .refl
  | step _ hr hrun ih => exact .step ih hr (TypeRequest.modeless _ _ _ _ mode hrun)

end UnionInference
