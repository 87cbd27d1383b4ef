import UnionInference.Proofs.Types.Interning

/-!
Tables written out. After the built-in types a table holds a row of types, and what is found under
texts other than theirs is listed, the newest first. So the table that some requests leave can be
worked out by hand, also when it is not canonical.
-/

namespace UnionInference

namespace TypeTable

/-- No built-in type has this text. -/
def IsForeign (k : String) : Prop := ∀ p ∈ nativeRow, (nativeEntry p).key ≠ k

instance (k : String) : Decidable (IsForeign k) :=
  inferInstanceAs (Decidable (∀ p ∈ nativeRow, (nativeEntry p).key ≠ k))

/-- The table holds the built-in types and then the given ones, with texts as listed. -/
structure Lists (t : TypeTable) (rows : List TypeEntry) (names : List (String × TypeId)) : Prop where
  entries : t.entries.toList = nativeRow.map nativeEntry ++ rows
  byKey : ∀ k, IsForeign k → t.byKey[k]? = names.lookup k

/-- The type that a request asks for, with the text by which it is looked for and its own. -/
structure Writes (t : TypeTable) (kind : TypeKind) (nullable : Bool) (ty : Ty) (k key : String) :
    Prop where
  inside : ∀ e ∈ kind.embedded, e < t.size
  type : normalize kind nullable = ty
  identity : t.identity ty = k
  render : t.render ty = key

variable {t : TypeTable} {rows : List TypeEntry} {names : List (String × TypeId)}

theorem lists_initial (nullCasts : Bool) : (initial nullCasts).Lists [] [] := by
  have h := holdsNatives_initial nullCasts
  refine ⟨by rw [h.entries, List.append_nil], fun k hk => ?_⟩
  rw [List.lookup_nil, Option.eq_none_iff_forall_ne_some]
  intro i hi
  obtain ⟨p, hp, hkey⟩ := (h.byKey k i).1 hi
  exact hk p (List.mem_of_getElem? hp) hkey

/-- A class without arguments is looked for in small letters. -/
theorem writes_object (t : TypeTable) (name : ClassName) (nullable : Bool) :
    t.Writes (.object name []) nullable ⟨.object name [], nullable⟩
      (nullMark nullable ++ name.foldedText) (nullMark nullable ++ name.text) where
  inside e he := by simp [TypeKind.embedded] at he
  type := by cases nullable <;> rfl
  identity := rfl
  render := rfl

/-- A class with arguments is looked for in small letters, with its arguments as they are. -/
theorem writes_classOf (t : TypeTable) (name : ClassName) {args : List UnionType} {text : String}
    (hne : args ≠ []) (hin : ∀ u ∈ args, ∀ e ∈ u.members, e < t.size)
    (htext : Text.join "," (args.map t.renderUnion) = text) :
    t.Writes (.object name args) false ⟨.object name args, false⟩
      (name.foldedText ++ "<" ++ text ++ ">") (name.text ++ "<" ++ text ++ ">") := by
  have hrender : ∀ s : String, t.renderClass s args = s ++ "<" ++ text ++ ">" := by
    intro s
    rw [renderClass, if_neg (by rwa [List.isEmpty_iff]), htext]
  refine ⟨fun e he => ?_, rfl, ?_, ?_⟩
  · obtain ⟨u, hu, he⟩ := List.mem_flatMap.1 he
    exact hin u hu e he
  · exact String.empty_append.trans (hrender _)
  · exact String.empty_append.trans (hrender _)

/-- A class with an argument is looked for in small letters, with its argument as it is. -/
theorem writes_class (t : TypeTable) (name : ClassName) {u : UnionType} {text : String}
    (hin : ∀ e ∈ u.members, e < t.size) (htext : t.renderUnion u = text) :
    t.Writes (.object name [u]) false ⟨.object name [u], false⟩
      (name.foldedText ++ "<" ++ text ++ ">") (name.text ++ "<" ++ text ++ ">") :=
  t.writes_classOf name (List.cons_ne_nil _ _) (List.forall_mem_singleton.2 hin)
    (by rw [List.map_singleton, htext, Text.join, String.intercalate_singleton])

/-- A class with two arguments is looked for likewise. -/
theorem writes_class₂ (t : TypeTable) (name : ClassName) {u v : UnionType} {text text' : String}
    (hu : ∀ e ∈ u.members, e < t.size) (hv : ∀ e ∈ v.members, e < t.size)
    (htext : t.renderUnion u = text) (htext' : t.renderUnion v = text') :
    t.Writes (.object name [u, v]) false ⟨.object name [u, v], false⟩
      (name.foldedText ++ "<" ++ (text ++ "," ++ text') ++ ">")
      (name.text ++ "<" ++ (text ++ "," ++ text') ++ ">") :=
  t.writes_classOf name (List.cons_ne_nil _ _)
    (List.forall_mem_cons.2 ⟨hu, List.forall_mem_singleton.2 hv⟩)
    (by rw [List.map_cons, List.map_singleton, htext, htext']; rfl)

/-- An array is looked for by its text. -/
theorem writes_arrayBy (t : TypeTable) (key : KeyKind) {element : TypeId} {text : String}
    (hin : element < t.size) (htext : t.renderArray key element = text) :
    t.Writes (.array key element) false ⟨.array key element, false⟩ text text where
  inside _ he := List.mem_singleton.1 he ▸ hin
  type := rfl
  identity := String.empty_append.trans htext
  render := String.empty_append.trans htext

/-- Two members whose texts are in order are written one after the other. -/
theorem renderUnion_pair (t : TypeTable) {i j : TypeId} (hij : i ≠ j) (h : ¬ t.key j < t.key i) :
    t.renderUnion (.ofList [i, j]) = t.key i ++ "|" ++ t.key j := by
  have hmembers : (UnionType.ofList [i, j]).members = [i, j] := by
    simp [UnionType.ofList, UnionType.insert, UnionType.empty, Ne.symm hij]
  rw [renderUnion, hmembers, sortTexts, List.mergeSort_of_pairwise]
  · rfl
  · simpa using h

/-- A placeholder is written by its name. -/
theorem writes_template (t : TypeTable) (name : String) :
    t.Writes (.template name) false ⟨.template name, false⟩ name name where
  inside e he := by simp [TypeKind.embedded] at he
  type := rfl
  identity := String.empty_append
  render := String.empty_append

/-- A literal is written in quotes. -/
theorem writes_stringLiteral (t : TypeTable) (s : String) :
    t.Writes (.stringLiteral s) false ⟨.stringLiteral s, false⟩ (quote s) (quote s) where
  inside e he := by simp [TypeKind.embedded] at he
  type := rfl
  identity := String.empty_append
  render := String.empty_append

namespace Lists

theorem size_eq (h : t.Lists rows names) : t.size = nativeRow.length + rows.length := by
  rw [size, ← Array.length_toList, h.entries, List.length_append, List.length_map]

theorem entry (h : t.Lists rows names) {i : TypeId} {e : TypeEntry}
    (he : (nativeRow.map nativeEntry ++ rows)[i]? = some e) : t.entries[i]? = some e := by
  rw [← Array.getElem?_toList, h.entries, he]

/-- Built-in types have no names, so it is enough to look at what was added to them. -/
theorem namesDivided (h : t.Lists rows names) (hrows : ∀ e ∈ rows, e.type.kind.Divided) :
    t.NamesDivided := by
  intro i e he
  rw [← Array.getElem?_toList] at he
  have hmem := List.mem_of_getElem? he
  rw [h.entries, List.mem_append, List.mem_map] at hmem
  rcases hmem with ⟨p, -, rfl⟩ | hmem
  · trivial
  · exact hrows e hmem

/-- An array of elements that need no parentheses is written by the text of its element. -/
theorem writes_arrayOf (h : t.Lists rows names) (element : TypeId) {e : TypeEntry}
    (he : (nativeRow.map nativeEntry ++ rows)[element]? = some e)
    (hplain : t.needsParens element = false) (nullable : Bool) :
    t.Writes (.array .mixed element) nullable ⟨.array .mixed element, nullable⟩
      (nullMark nullable ++ (e.key ++ "[]")) (nullMark nullable ++ (e.key ++ "[]")) := by
  have hrender : t.renderArray .mixed element = e.key ++ "[]" := by
    rw [renderArray, hplain, key_eq (h.entry he)]
    rfl
  refine ⟨fun i hi => ?_, by cases nullable <;> rfl, ?_, ?_⟩
  · rw [TypeKind.embedded, List.mem_singleton] at hi
    exact hi ▸ lt_size_of_entry (h.entry he)
  · exact congrArg (nullMark nullable ++ ·) hrender
  · exact congrArg (nullMark nullable ++ ·) hrender

/-- An array of objects is written by the text of its element. -/
theorem writes_array (h : t.Lists rows names) (element : TypeId) {name : ClassName} {key : String}
    (he : (nativeRow.map nativeEntry ++ rows)[element]? = some ⟨⟨.object name [], false⟩, key⟩)
    (nullable : Bool) :
    t.Writes (.array .mixed element) nullable ⟨.array .mixed element, nullable⟩
      (nullMark nullable ++ (key ++ "[]")) (nullMark nullable ++ (key ++ "[]")) := by
  refine h.writes_arrayOf element he ?_ nullable
  rw [needsParens, get?_eq (h.entry he)]

variable {kind : TypeKind} {nullable : Bool} {ty : Ty} {k key : String}

/-- A type that is listed is found. -/
theorem intern_found (h : t.Lists rows names) (hw : t.Writes kind nullable ty k key)
    (hforeign : IsForeign k) {id : TypeId} (hid : names.lookup k = some id) :
    TypeM.intern kind nullable t = .ok (id, t) := by
  refine TypeM.intern_of_finds hw.inside ?_
  rw [Finds, hw.type, hw.identity, h.byKey k hforeign, hid]

/-- A type that is not listed comes to the end of the row, under its two texts. -/
theorem intern_new (h : t.Lists rows names) (hw : t.Writes kind nullable ty k key)
    (hforeign : IsForeign k) (hnone : names.lookup k = none) :
    ∃ t', TypeM.intern kind nullable t = .ok (nativeRow.length + rows.length, t') ∧
      t'.Lists (rows ++ [⟨ty, key⟩])
        ((key, nativeRow.length + rows.length) :: (k, nativeRow.length + rows.length) :: names) ∧
      t'.cache = t.cache := by
  rcases place_cases (normalize kind nullable) hw.inside with ⟨id, hid, -⟩ | ⟨-, hplace, hjoins⟩
  · rw [hw.type, hw.identity, h.byKey k hforeign, hnone] at hid
    cases hid
  · refine ⟨(t.place (normalize kind nullable) hw.inside).2, ?_, ⟨?_, ?_⟩, cache_place _ _⟩
    · rw [TypeM.intern, dif_pos hw.inside, ← h.size_eq, ← hplace]
    · rw [hjoins.entries, Array.toList_push, h.entries, hw.type, hw.render, List.append_assoc]
    · intro s hs
      rw [hjoins.byKey, hw.type, hw.identity, hw.render, h.size_eq, Std.HashMap.getElem?_insert,
        Std.HashMap.getElem?_insert, List.lookup_cons, List.lookup_cons, h.byKey s hs,
        @BEq.comm _ _ _ key, @BEq.comm _ _ _ k]
      cases s == key <;> cases s == k <;> rfl

/-- A type that is not listed can be asked for. -/
theorem reaches_new {ok : TypeKind → Prop} (hreach : Reachable ok t) (hok : ok kind)
    (h : t.Lists rows names) (hw : t.Writes kind nullable ty k key) (hforeign : IsForeign k)
    (hnone : names.lookup k = none) : ∃ t', Reachable ok t' ∧ t'.Lists (rows ++ [⟨ty, key⟩])
      ((key, nativeRow.length + rows.length) :: (k, nativeRow.length + rows.length) :: names) := by
  obtain ⟨mode, hsteps⟩ := hreach
  obtain ⟨t', hrun, h', -⟩ := h.intern_new hw hforeign hnone
  refine ⟨t', ⟨mode, .step (r := .intern kind nullable) hsteps ?_ hrun⟩, h'⟩
  rintro _ ⟨⟩
  exact hok

end Lists

end TypeTable

end UnionInference
