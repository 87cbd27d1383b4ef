import UnionInference.Proofs.Types.Listing
import UnionInference.Proofs.Types.RoundTrip
import UnionInference.Proofs.Types.Widening

/-!
Types and their twins. The twin of a type is of the same kind, with null or without as asked for.
Twins of one type have the same twins, so taking null away and giving it again leads back to where
it started, and what is made of every member of a union by one of the two is left by it the next
time.
-/

namespace UnionInference

/-- A proper kind whose class name is divided before the last segment is standard. -/
theorem TypeKind.Proper.standard {kind : TypeKind} (h : kind.Proper) (hdivided : kind.Divided) :
    kind.Standard := by
  refine ⟨h, ?_⟩
  rintro name args rfl
  exact hdivided

/-- Standard kinds that are alike have class names that are the same part by part. -/
theorem TypeKind.Standard.alike_sameClass {a b : TypeKind} (ha : a.Standard) (hb : b.Standard)
    (h : a.Alike SameName b) : a.Alike (fun x y => x.sameClass y = true) b := by
  match a, b, h with
  | .object x _, .object y _, h =>
    have hname : x.sameClass y = true := by
      rw [QualifiedName.sameClass, Standard.fold_eq ha hb h.1, beq_self_eq_true]
    exact ⟨hname, h.2⟩
  | .native _, .native _, h | .array .., .array .., h | .shape _, .shape _, h
  | .intLiteral _, .intLiteral _, h | .stringLiteral _, .stringLiteral _, h
  | .callable _, .callable _, h | .template _, .template _, h => simpa only [Alike] using h

namespace TypeTable

variable {t t₁ t₂ : TypeTable} {ty : Ty} {i j k : TypeId} {m n : Bool}

/-! ### Twins -/

/-- The second type is the one that is found for the kind of the first one, with null or without. -/
def Twin (t : TypeTable) (nullable : Bool) (i j : TypeId) : Prop :=
  ∃ ty, t.get? i = some ty ∧ t.Finds (normalize ty.kind nullable) j

theorem twin_iff (hty : t.get? i = some ty) :
    t.Twin n i j ↔ t.Finds (normalize ty.kind n) j := by
  constructor
  · rintro ⟨ty', hty', hj⟩
    rw [hty] at hty'
    cases hty'
    exact hj
  · exact fun hj => ⟨ty, hty, hj⟩

theorem Twin.unique (hj : t.Twin n i j) (hk : t.Twin n i k) : j = k := by
  obtain ⟨ty, hty, hj⟩ := hj
  exact hj.unique ((twin_iff hty).1 hk)

theorem Twin.extends (hc : t.Canonical) (h : t.Twin n i j) (hext : t.Extends t₁) :
    t₁.Twin n i j := by
  obtain ⟨ty, hty, hj⟩ := h
  exact ⟨ty, hext.keeps.get? hty, hj.extends (hc.writable_get? hty).inside hext⟩

/-- A type is the twin of itself that has null if the type has. -/
theorem Canonical.twin_self (hc : t.Canonical) (hty : t.get? i = some ty) :
    t.Twin ty.nullable i i := by
  rw [twin_iff hty, hc.normalize_get? hty]
  exact hc.finds_get? hty

/-- A twin is of a kind that is alike, and has null if that was asked for and says something. -/
theorem Canonical.get?_of_twin (hc : t.Canonical) (hty : t.get? i = some ty) (h : t.Twin n i j) :
    ∃ e, t.get? j = some e ∧ e.nullable = (n && ty.kind.acceptsNull) ∧
      ty.kind.Alike SameName e.kind := by
  have hw := hc.writable_get? hty
  obtain ⟨e, he, ⟨hnull, -⟩, -, hkind⟩ :=
    hc.alike_of_finds (writable_normalize n hw.inside hw.named) ((twin_iff hty).1 h)
  exact ⟨e, he, hnull, hkind⟩

/-- The twins of a twin are the twins of the type. -/
theorem Canonical.twin_twin (hc : t.Canonical) (h : t.Twin n i j) :
    t.Twin m j k ↔ t.Twin m i k := by
  obtain ⟨ty, hty, -⟩ := id h
  obtain ⟨e, he, -, hkind⟩ := hc.get?_of_twin hty h
  have halike : (normalize ty.kind m).Alike SameName (normalize e.kind m) :=
    ⟨congrArg (m && ·) hkind.acceptsNull, hkind⟩
  rw [twin_iff hty, twin_iff he, hc.finds_congr halike]

/-- Null has no twin but itself. -/
theorem Canonical.twin_null (hc : t.Canonical) :
    t.Twin n NativeKind.null.id j ↔ j = NativeKind.null.id := by
  have hnull : t.get? NativeKind.null.id = some ⟨.native .null, false⟩ := get?_eq (hc.natives .null)
  have hsame : normalize (.native .null) n = ⟨.native .null, false⟩ := by
    rw [normalize, show TypeKind.acceptsNull (.native .null) = false from rfl, Bool.and_false]
  have hfinds := hc.finds_get? hnull
  rw [twin_iff hnull, hsame]
  exact ⟨fun hj => hj.unique hfinds, fun hj => hj ▸ hfinds⟩

theorem Twin.eq_null_iff (hc : t.Canonical) (h : t.Twin n i j) :
    j = NativeKind.null.id ↔ i = NativeKind.null.id := by
  constructor
  · rintro rfl
    obtain ⟨ty, hty, -⟩ := id h
    exact hc.twin_null.1 ((hc.twin_twin h).2 (hc.twin_self hty))
  · rintro rfl
    exact hc.twin_null.1 h

/-- A twin without null does not admit it, unless it is null itself. -/
theorem Canonical.admitsNull_of_twin (hc : t.Canonical) (h : t.Twin false i j)
    (hne : j ≠ NativeKind.null.id) : ∃ e, t.get? j = some e ∧ e.admitsNull = false := by
  obtain ⟨ty, hty, -⟩ := id h
  obtain ⟨e, he, hnull, -⟩ := hc.get?_of_twin hty h
  refine ⟨e, he, ?_⟩
  rw [Ty.admitsNull, hnull, Bool.false_and, Bool.false_or, ← Bool.not_eq_true, Ty.isNative_iff]
  intro hkind
  -- a type of the kind of null stands where null does
  have hself : t.Twin false j j := (hc.twin_twin h).2 h
  rw [twin_iff he, hkind] at hself
  exact hne (hself.unique (hc.finds_get? (get?_eq (hc.natives .null))))

end TypeTable

/-! ### Requests for twins -/

namespace TypeM

open TypeTable

variable {t : TypeTable} {i j : TypeId} {n : Bool}

/-- A twin that is there is found, and nothing joins the table. -/
theorem withNull_of_twin (hc : t.Canonical) (h : t.Twin n i j) : withNull i n t = .ok (j, t) := by
  obtain ⟨ty, hty, hj⟩ := h
  refine bind_eq_ok.2 ⟨ty, t, fetch_eq_ok.2 ⟨rfl, Option.map_eq_some_iff.1 hty⟩, ?_⟩
  split
  · next hsame =>
    rw [hc.normalize_of_same hty hsame] at hj
    rw [hj.unique (hc.finds_get? hty)]
    rfl
  · exact intern_of_finds (hc.writable_get? hty).inside hj

/-- A twin is what is found for the kind. -/
theorem withNull_of_found {t₁ : TypeTable} {ty : Ty} (hty : t.get? i = some ty)
    (hne : ty.nullable ≠ n) (haccepts : ty.kind.acceptsNull = true)
    (h : intern ty.kind n t = .ok (j, t₁)) : withNull i n t = .ok (j, t₁) := by
  refine bind_eq_ok.2 ⟨ty, t, fetch_eq_ok.2 ⟨rfl, Option.map_eq_some_iff.1 hty⟩, ?_⟩
  rw [if_neg (by simp [hne, haccepts])]
  exact h

/-- Every type has a twin with null and one without. -/
theorem delivers_twin (ht : t.Proper) (hi : i < t.size) (n : Bool) :
    Delivers t (withNull i n) fun t j => t.Twin n i j := by
  obtain ⟨ty, hty⟩ := exists_get? hi
  refine (delivers_variant ht hty n).imp fun j t₁ hext _ hj => ?_
  exact (twin_iff (hext.keeps.get? hty)).2 hj

end TypeM

/-! ### Unions -/

namespace UnionType

open TypeTable TypeM

variable {t t₁ : TypeTable} {u v v' w : UnionType} {i : TypeId} {n : Bool}

theorem mem_erase {a : TypeId} : i ∈ (u.erase a).members ↔ i ∈ u.members ∧ i ≠ a := by
  simp [erase, filter]

theorem erase_of_notMem {a : TypeId} (h : a ∉ u.members) : u.erase a = u := by
  refine ext (List.filter_eq_self.2 fun i hi => ?_)
  rw [bne_iff_ne]
  rintro rfl
  exact h hi

/-- Members that come once are all added, in order. -/
theorem members_foldl_insert {ids : List TypeId} :
    ∀ {u : UnionType}, (u.members ++ ids).Nodup → (ids.foldl insert u).members = u.members ++ ids := by
  induction ids with
  | nil => exact fun _ => (List.append_nil _).symm
  | cons a ids ih =>
    intro u h
    have hnew : a ∉ u.members := fun ha =>
      (List.nodup_append.1 h).2.2 a ha a List.mem_cons_self rfl
    have hinsert : (u.insert a).members = u.members ++ [a] := by
      rw [insert, dif_neg hnew]
    rw [List.append_cons] at h
    rw [List.foldl_cons, ih (by rwa [hinsert]), hinsert, ← List.append_cons]

theorem ofList_members (u : UnionType) : ofList u.members = u :=
  ext ((members_foldl_insert (u := empty) u.nodup).trans (List.nil_append _))

/-- A union is left by work that leaves its members and the table. -/
theorem mapMembers_self {f : TypeId → TypeM TypeId} (h : ∀ i ∈ u.members, f i t = .ok (i, t)) :
    u.mapMembers f t = .ok (u, t) := by
  obtain ⟨ids, hrun, hids⟩ := TypeM.mapM_of_forall (P := Eq) fun i hi => ⟨i, h i hi, rfl⟩
  rw [List.forall₂_eq_eq_eq] at hids
  refine bind_eq_ok.2 ⟨ids, t, hrun, ?_⟩
  rw [← hids, ofList_members]
  rfl

/-- What is made of each member is its twin. -/
theorem delivers_twins (ht : t.Proper) (hu : ∀ i ∈ u.members, i < t.size) (n : Bool) :
    Delivers t (u.mapMembers fun i => TypeM.withNull i n) fun t v => Image (t.Twin n) u v :=
  delivers_mapMembers (fun _ _ ht _ hext _ _ h => h.extends ht.canonical hext)
    (fun _ _ _ _ => Twin.unique) ht fun _ hext ht₁ i hi =>
      delivers_twin ht₁ (hext.lt_size (hu i hi)) n

/-- Twins are still there when the table has grown. -/
theorem Image.twins_extends (hc : t.Canonical) (hext : t.Extends t₁) (h : Image (t.Twin n) u v) :
    Image (t₁.Twin n) u v :=
  h.mono (fun _ _ _ hij => hij.extends hc hext) fun _ _ _ => Twin.unique

/-- Twins with null, or without, are left as they are. -/
theorem Image.mapMembers_twins (hc : t.Canonical) (h : Image (t.Twin n) u v) :
    v.mapMembers (fun i => TypeM.withNull i n) t = .ok (v, t) := by
  refine mapMembers_self fun j hj => withNull_of_twin hc ?_
  obtain ⟨i, -, hij⟩ := (h.mem j).1 hj
  exact (hc.twin_twin hij).2 hij

/-- Null is not among the twins of other types. -/
theorem Image.null_notMem (hc : t.Canonical)
    (h : Image (t.Twin n) (u.erase NativeKind.null.id) v) : NativeKind.null.id ∉ v.members := by
  intro hmem
  obtain ⟨i, hi, hij⟩ := (h.mem _).1 hmem
  exact (mem_erase.1 hi).2 ((hij.eq_null_iff hc).1 rfl)

/-- What is without null is left as it is, and admits none. -/
theorem Image.withoutNull_self (hc : t.Canonical)
    (h : Image (t.Twin false) (u.erase NativeKind.null.id) v) : v.withoutNull t = .ok (v, t) := by
  rw [withoutNull, erase_of_notMem (h.null_notMem hc)]
  exact h.mapMembers_twins hc

theorem Image.admitsNull_eq (hc : t.Canonical)
    (h : Image (t.Twin false) (u.erase NativeKind.null.id) v) : v.admitsNull t = .ok false := by
  have hmember : ∀ j ∈ v.members, Decides ((t.fetch j).map Ty.admitsNull) False := by
    intro j hj
    have hne : j ≠ NativeKind.null.id := fun heq => h.null_notMem hc (heq ▸ hj)
    obtain ⟨i, -, hij⟩ := (h.mem j).1 hj
    obtain ⟨e, he, hnull⟩ := hc.admitsNull_of_twin hij hne
    obtain ⟨entry, hentry, rfl⟩ := Option.map_eq_some_iff.1 he
    refine ⟨false, ?_, by simp⟩
    rw [fetch_eq hentry, ← hnull]
    rfl
  exact (decides_anyM hmember).not fun ⟨_, _, hfalse⟩ => hfalse

/-- Null that was given to the members first makes no difference to what is left without it. -/
theorem Image.sameMembers_withoutNull (hc : t.Canonical)
    (hv : Image (t.Twin false) (u.erase NativeKind.null.id) v) (hw : Image (t.Twin true) u w)
    (hv' : Image (t.Twin false) (w.erase NativeKind.null.id) v') : v'.SameMembers v := by
  intro j
  rw [hv'.mem, hv.mem]
  constructor
  · rintro ⟨k, hk, hkj⟩
    obtain ⟨hkw, hkne⟩ := mem_erase.1 hk
    obtain ⟨i, hi, hik⟩ := (hw.mem k).1 hkw
    exact ⟨i, mem_erase.2 ⟨hi, fun heq => hkne ((hik.eq_null_iff hc).2 heq)⟩,
      (hc.twin_twin hik).1 hkj⟩
  · rintro ⟨i, hi, hij⟩
    obtain ⟨hiu, hine⟩ := mem_erase.1 hi
    obtain ⟨k, hik⟩ := hw.total i hiu
    exact ⟨k, mem_erase.2 ⟨(hw.mem k).2 ⟨i, hiu, hik⟩, fun heq => hine ((hik.eq_null_iff hc).1 heq)⟩,
      (hc.twin_twin hik).2 hij⟩

end UnionType

namespace TypeTable

open UnionType

variable {t : TypeTable}

/-- When the names of classes in a table are divided before the last segment, a twin has the name of
its type part by part. -/
theorem Proper.sameClass_of_withNull (ht : t.Proper) (hnames : t.NamesDivided) {i j : TypeId}
    {d e : Ty} {n : Bool} {t₁ : TypeTable} (hd : t.get? i = some d)
    (hrun : TypeM.withNull i n t = .ok (j, t₁)) (he : t₁.get? j = some e)
    (hkind : d.kind.Alike SameName e.kind) :
    d.kind.Alike (fun x y => x.sameClass y = true) e.kind := by
  have hall : ∀ (k : TypeId) (entry : TypeEntry), t.entries[k]? = some entry →
      entry.type.kind.Standard := fun k entry hk =>
    (ht.kinds k entry.type (get?_eq hk)).standard (hnames k entry hk)
  have hgrows := ht.canonical.grows_of_run TypeKind.typeSort_standard hall (r := .withNull i n) nofun hrun
  have hstandard : e.kind.Standard := by
    obtain ⟨entry, hentry, rfl⟩ := Option.map_eq_some_iff.1 he
    exact (hgrows.only j entry hentry).elim (hall j entry) id
  obtain ⟨entry, hentry, rfl⟩ := Option.map_eq_some_iff.1 hd
  exact (hall i entry hentry).alike_sameClass hstandard hkind

/-- Null is given and taken away without a trace. A type that can have null has a twin with it and a
twin without, of a kind that is alike, up to the way in which class names are divided, and in that
too if all names are divided before the last segment; and the twin leads back to the type. Of a union without null nothing admits null, giving or
taking it twice is doing so once, and what is left without null does not depend on whether null was
given before. -/
theorem withNull_reversible (h : Reachable TypeKind.Proper t) :
    (∀ i d, t.get? i = some d → d.kind.acceptsNull = true → ∀ n, ∃ j e t₁,
      TypeM.withNull i n t = .ok (j, t₁) ∧ t₁.get? j = some e ∧ e.nullable = n ∧
      d.kind.Alike SameName e.kind ∧
      (t.NamesDivided → d.kind.Alike (fun x y => x.sameClass y = true) e.kind) ∧
      TypeM.withNull j d.nullable t₁ = .ok (i, t₁)) ∧
    ∀ u : UnionType, (∀ i ∈ u.members, i < t.size) →
      ∃ v t₁, u.withoutNull t = .ok (v, t₁) ∧ v.admitsNull t₁ = .ok false ∧
        v.withoutNull t₁ = .ok (v, t₁) ∧
        ∃ w t₂, u.withNull t₁ = .ok (w, t₂) ∧ w.withNull t₂ = .ok (w, t₂) ∧
          ∃ v' t₃, w.withoutNull t₂ = .ok (v', t₃) ∧ v'.SameMembers v := by
  have ht := h.proper
  constructor
  · intro i d hd haccepts n
    obtain ⟨j, t₁, hrun, hext, ht₁, hj⟩ := TypeM.delivers_twin ht (lt_size_of_get? hd) n
    have hd₁ := hext.keeps.get? hd
    obtain ⟨e, he, hnull, hkind⟩ := ht₁.canonical.get?_of_twin hd₁ hj
    refine ⟨j, e, t₁, hrun, he, by rw [hnull, haccepts, Bool.and_true], hkind, ?_, ?_⟩
    · exact fun hnames => ht.sameClass_of_withNull hnames hd hrun he hkind
    · exact TypeM.withNull_of_twin ht₁.canonical
        ((ht₁.canonical.twin_twin hj).2 (ht₁.canonical.twin_self hd₁))
  · intro u hu
    have herase : ∀ {u : UnionType} {t : TypeTable}, (∀ i ∈ u.members, i < t.size) →
        ∀ i ∈ (u.erase NativeKind.null.id).members, i < t.size := fun hu i hi =>
      hu i (mem_erase.1 hi).1
    obtain ⟨v, t₁, hrunv, hext₁, ht₁, hv⟩ := delivers_twins ht (herase hu) false
    obtain ⟨w, t₂, hrunw, hext₂, ht₂, hw⟩ :=
      delivers_twins ht₁ (fun i hi => hext₁.lt_size (hu i hi)) true
    have hwin : ∀ k ∈ w.members, k < t₂.size := by
      intro k hk
      obtain ⟨i, -, ty, -, hfinds⟩ := (hw.mem k).1 hk
      exact ht₂.canonical.lt_size_of_finds hfinds
    obtain ⟨v', t₃, hrunv', hext₃, ht₃, hv'⟩ := delivers_twins ht₂ (herase hwin) false
    refine ⟨v, t₁, hrunv, hv.admitsNull_eq ht₁.canonical, hv.withoutNull_self ht₁.canonical, w, t₂,
      hrunw, hw.mapMembers_twins ht₂.canonical, v', t₃, hrunv', ?_⟩
    exact Image.sameMembers_withoutNull ht₃.canonical
      (hv.twins_extends ht₁.canonical (hext₂.trans hext₃)) (hw.twins_extends ht₂.canonical hext₃) hv'

/-! ### Twins of a class and of a closure -/

/-- A closure that takes one argument, of the given type. -/
def closureOf (u : UnionType) : TypeKind :=
  .callable { isClosure := true, params := [{ type := u }], result := .empty }

theorem writes_closureOf (t : TypeTable) (nullable : Bool) {u : UnionType}
    (hin : ∀ i ∈ u.members, i < t.size)
    (htext : (if u.isEmpty then NativeKind.mixed.name else t.renderUnion u) = "mixed") :
    t.Writes (closureOf u) nullable ⟨closureOf u, nullable⟩ (nullMark nullable ++ "Closure(mixed)")
      (nullMark nullable ++ "Closure(mixed)") := by
  have hrender : t.renderKind (closureOf u) = "Closure(mixed)" := by
    show "Closure" ++ "(" ++ Text.join "," [t.renderParam { type := u }] ++ ")" ++ "" = _
    rw [renderParam, htext]
    rfl
  refine ⟨fun i hi => ?_, by cases nullable <;> rfl, ?_, ?_⟩
  · exact hin i (by simpa [closureOf, TypeKind.embedded] using hi)
  · exact congrArg (nullMark nullable ++ ·) hrender
  · exact congrArg (nullMark nullable ++ ·) hrender

/-- A class, and with null in another letter case; a closure that takes anything, and with null one
that takes `mixed`. -/
def twinRows : List TypeEntry :=
  [⟨⟨.object ⟨"\\", "a"⟩ [], false⟩, "\\a"⟩, ⟨⟨.object ⟨"\\", "A"⟩ [], true⟩, "?\\A"⟩,
    ⟨⟨closureOf .empty, false⟩, "Closure(mixed)"⟩,
    ⟨⟨closureOf (.of NativeKind.mixed.id), true⟩, "?Closure(mixed)"⟩]

/-- Where they are found. -/
def twinNames : List (String × TypeId) :=
  [("?Closure(mixed)", 34), ("?Closure(mixed)", 34), ("Closure(mixed)", 33),
    ("Closure(mixed)", 33), ("?\\A", 32), ("?\\a", 32), ("\\a", 31), ("\\a", 31)]

theorem exists_lists_twins : ∃ t, Reachable TypeKind.Proper t ∧ t.Lists twinRows twinNames := by
  have hreach : Reachable TypeKind.Proper (initial false) := ⟨false, .refl⟩
  have ha : (TypeKind.object ⟨"\\", "a"⟩ []).Proper :=
    ⟨⟨["a".toList], by decide, by decide, by decide⟩, by decide⟩
  have hA : (TypeKind.object ⟨"\\", "A"⟩ []).Proper :=
    ⟨⟨["A".toList], by decide, by decide, by decide⟩, by decide⟩
  obtain ⟨t, h, l⟩ := (lists_initial false).reaches_new hreach ha
    (writes_object _ ⟨"\\", "a"⟩ false) (by decide) rfl
  obtain ⟨t, h, l⟩ := l.reaches_new h hA (writes_object t ⟨"\\", "A"⟩ true) (by decide) rfl
  obtain ⟨t, h, l⟩ := l.reaches_new h (show (closureOf .empty).Proper from trivial)
    (t.writes_closureOf false (by simp [UnionType.empty]) rfl) (by decide) rfl
  have hmixed := l.entry (i := NativeKind.mixed.id) rfl
  obtain ⟨t, h, l⟩ := l.reaches_new h
    (show (closureOf (.of NativeKind.mixed.id)).Proper from trivial)
    (t.writes_closureOf true (fun i hi => UnionType.mem_of.1 hi ▸ lt_size_of_entry hmixed)
      ((renderUnion_of t _).trans (key_eq hmixed))) (by decide) rfl
  exact ⟨t, h, l⟩

/-- The class leads to the one with null in the other letter case and back, the closure to the one
that takes `mixed` and back, and of the class and null nothing admits null without it. -/
theorem withNull_reversible_class : ∃ t, Reachable TypeKind.Proper t ∧ t.NamesDivided ∧
    t.get? 31 = some ⟨.object ⟨"\\", "a"⟩ [], false⟩ ∧
    TypeM.withNull 31 true t = .ok (32, t) ∧ t.get? 32 = some ⟨.object ⟨"\\", "A"⟩ [], true⟩ ∧
    (TypeKind.object ⟨"\\", "a"⟩ []).Alike (fun x y => x.sameClass y = true)
      (.object ⟨"\\", "A"⟩ []) ∧
    TypeM.withNull 32 false t = .ok (31, t) ∧
    TypeM.withNull 33 true t = .ok (34, t) ∧
    (closureOf .empty).Alike (fun x y => x.sameClass y = true)
      (closureOf (.of NativeKind.mixed.id)) ∧
    TypeM.withNull 34 false t = .ok (33, t) ∧
    ∃ v t₁, (UnionType.ofList [31, NativeKind.null.id]).withoutNull t = .ok (v, t₁) ∧
      v.admitsNull t₁ = .ok false := by
  obtain ⟨t, h, l⟩ := exists_lists_twins
  have hnames : t.NamesDivided := by
    refine l.namesDivided fun e he => ?_
    simp only [twinRows, List.mem_cons, List.not_mem_nil, or_false] at he
    obtain rfl | rfl | rfl | rfl := he
    · show QualifiedName.ofFullName (QualifiedName.text ⟨"\\", "a"⟩) = _
      decide
    · show QualifiedName.ofFullName (QualifiedName.text ⟨"\\", "A"⟩) = _
      decide
    · trivial
    · trivial
  have ha := get?_eq (l.entry (i := 31) rfl)
  have hA := get?_eq (l.entry (i := 32) rfl)
  have hany := get?_eq (l.entry (i := 33) rfl)
  have hmixed := get?_eq (l.entry (i := 34) rfl)
  obtain ⟨htypes, hunions⟩ := withNull_reversible h
  -- the twins are there already
  have hclass : TypeM.withNull 31 true t = .ok (32, t) :=
    TypeM.withNull_of_found ha nofun rfl
      (l.intern_found (writes_object t ⟨"\\", "a"⟩ true) (by decide) rfl)
  have hclosure : TypeM.withNull 33 true t = .ok (34, t) :=
    TypeM.withNull_of_found hany nofun rfl
      (l.intern_found (t.writes_closureOf true (by simp [UnionType.empty]) rfl) (by decide) rfl)
  obtain ⟨j, e, t₁, hrun, he, -, -, hsame, hback⟩ := htypes 31 _ ha rfl true
  obtain ⟨rfl, rfl⟩ := Prod.mk.inj (Except.ok.inj (hrun.symm.trans hclass))
  obtain rfl := Option.some.inj (he.symm.trans hA)
  obtain ⟨j', e', t₁', hrun', he', -, -, hsame', hback'⟩ := htypes 33 _ hany rfl true
  obtain ⟨rfl, rfl⟩ := Prod.mk.inj (Except.ok.inj (hrun'.symm.trans hclosure))
  obtain rfl := Option.some.inj (he'.symm.trans hmixed)
  obtain ⟨v, t₂, hrunv, hnone, -⟩ :=
    hunions (UnionType.ofList [31, NativeKind.null.id]) fun i hi => by
      rcases List.mem_pair.1 (UnionType.mem_ofList.1 hi) with rfl | rfl
      · exact lt_size_of_get? ha
      · exact h.rooted.native_lt_size .null
  exact ⟨_, h, hnames, ha, hclass, hA, hsame hnames, hback, hclosure, hsame' hnames, hback', v, t₂,
    hrunv, hnone⟩

/-! ### The twin of a class whose name is not divided -/

/-- A class whose name is not divided before its last segment, and one with null whose name is. -/
def undividedRows : List TypeEntry :=
  [⟨⟨.object ⟨"\\", "A\\B"⟩ [], false⟩, "\\A\\B"⟩, ⟨⟨.object ⟨"\\A", "B"⟩ [], true⟩, "?\\A\\B"⟩]

/-- Where they are found. -/
def undividedNames : List (String × TypeId) :=
  [("?\\A\\B", 32), ("?\\a\\b", 32), ("\\A\\B", 31), ("\\a\\b", 31)]

theorem exists_lists_undivided :
    ∃ t, Reachable TypeKind.Proper t ∧ t.Lists undividedRows undividedNames := by
  have hreach : Reachable TypeKind.Proper (initial false) := ⟨false, .refl⟩
  have hwhole : (TypeKind.object ⟨"\\", "A\\B"⟩ []).Proper :=
    ⟨⟨["A".toList, "B".toList], by decide, by decide, by decide⟩, by decide⟩
  have hparts : (TypeKind.object ⟨"\\A", "B"⟩ []).Proper :=
    ⟨⟨["A".toList, "B".toList], by decide, by decide, by decide⟩, by decide⟩
  obtain ⟨t, h, l⟩ := (lists_initial false).reaches_new hreach hwhole
    (writes_object _ ⟨"\\", "A\\B"⟩ false) (by decide) rfl
  obtain ⟨t, h, l⟩ := l.reaches_new h hparts (writes_object t ⟨"\\A", "B"⟩ true) (by decide) rfl
  exact ⟨t, h, l⟩

/-- A class whose name is not divided has a twin whose name is: the two have one full name, and are
not the same class part by part. -/
theorem not_sameClass_withNull : ∃ t x y, Reachable TypeKind.Proper t ∧
    t.get? 31 = some ⟨.object x [], false⟩ ∧ TypeM.withNull 31 true t = .ok (32, t) ∧
    t.get? 32 = some ⟨.object y [], true⟩ ∧
    ¬ (TypeKind.object x []).Alike (fun x y => x.sameClass y = true) (.object y []) := by
  obtain ⟨t, h, l⟩ := exists_lists_undivided
  have hwhole := get?_eq (l.entry (i := 31) rfl)
  have htwin : TypeM.withNull 31 true t = .ok (32, t) :=
    TypeM.withNull_of_found hwhole nofun rfl
      (l.intern_found (writes_object t ⟨"\\", "A\\B"⟩ true) (by decide) rfl)
  refine ⟨t, _, _, h, hwhole, htwin, get?_eq (l.entry (i := 32) rfl), fun hsame => ?_⟩
  exact absurd hsame.1 (by decide)

end TypeTable

end UnionInference
