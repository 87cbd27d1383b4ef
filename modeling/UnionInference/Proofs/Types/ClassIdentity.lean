import UnionInference.Proofs.FullName
import UnionInference.Proofs.Types.ReadingSafety
import UnionInference.Proofs.Types.Supply

/-!
One type for each class. A class without arguments is looked for under its name in small letters. No
request takes such a text over from the type that is found under it, and no type is found under two
such texts, whatever else the table holds and however its names are spelled. So two names have the
type of one class exactly when they name one class.
-/

namespace UnionInference

namespace Text

/-- A text is in small letters if and only if its two parts are. -/
theorem fold_append_eq_self {a b : String} : fold (a ++ b) = a ++ b ↔ fold a = a ∧ fold b = b := by
  have hlength : (fold a).toList.length = a.toList.length := by rw [toList_fold, List.length_map]
  rw [fold_append]
  constructor
  · intro h
    have hparts := congrArg String.toList h
    rw [String.toList_append, String.toList_append] at hparts
    obtain ⟨ha, hb⟩ := List.append_inj hparts hlength
    exact ⟨String.toList_inj.1 ha, String.toList_inj.1 hb⟩
  · rintro ⟨ha, hb⟩
    rw [ha, hb]

end Text

namespace TypeTable

variable {t t₁ t₂ : TypeTable} {ty : Ty} {i j : TypeId} {k l : String} {q r : ClassName}

/-! ### Texts in small letters -/

/-- The arguments of a class are written behind its name. -/
theorem exists_renderClass_eq (t : TypeTable) (args : List UnionType) :
    ∃ rest, ∀ name, t.renderClass name args = name ++ rest := by
  cases h : args.isEmpty with
  | true => exact ⟨"", fun name => by rw [renderClass, h, if_pos rfl, String.append_empty]⟩
  | false =>
    refine ⟨"<" ++ Text.join "," (args.map t.renderUnion) ++ ">", fun name => ?_⟩
    rw [renderClass, h, if_neg Bool.false_ne_true, String.append_assoc, String.append_assoc,
      String.append_assoc]

/-- A type that is written in small letters is looked for under its own text. -/
theorem identity_eq_render (h : Text.fold (t.render ty) = t.render ty) :
    t.identity ty = t.render ty := by
  obtain ⟨kind, nullable⟩ := ty
  cases kind with
  | object name args =>
    obtain ⟨rest, hrest⟩ := t.exists_renderClass_eq args
    have hname : name.foldedText = name.text := by
      rw [render, renderKind, hrest, Text.fold_append_eq_self, Text.fold_append_eq_self] at h
      exact h.2.1
    simp only [identity, render, renderKind, hname]
  | _ => rfl

/-- The types that a table finds under texts in small letters are still found under them in the
other one. -/
def KeepsFolded (t t₁ : TypeTable) : Prop :=
  ∀ k i, Text.fold k = k → t.byKey[k]? = some i → t₁.byKey[k]? = some i

theorem KeepsFolded.trans (h : t.KeepsFolded t₁) (h' : t₁.KeepsFolded t₂) : t.KeepsFolded t₂ :=
  fun k i hk hi => h' k i hk (h k i hk hi)

/-- No type is found under two texts in small letters. -/
def Separates (t : TypeTable) : Prop :=
  ∀ k l i, Text.fold k = k → Text.fold l = l → t.byKey[k]? = some i → t.byKey[l]? = some i → k = l

/-- A type that joins a table is found under one text in small letters at most: the one under which
it was looked for. -/
theorem Joins.byKey_folded (h : t.Joins ty t₁) (hk : Text.fold k = k) :
    t₁.byKey[k]? = if t.identity ty = k then some t.size else t.byKey[k]? := by
  have hsame : t.render ty = k ∨ t.identity ty = k ↔ t.identity ty = k := by
    refine or_iff_right_of_imp ?_
    rintro rfl
    exact identity_eq_render hk
  rw [h.byKey_eq, if_congr hsame rfl rfl]

theorem Joins.keepsFolded (hnone : t.byKey[t.identity ty]? = none) (h : t.Joins ty t₁) :
    t.KeepsFolded t₁ := by
  intro k i hk hi
  rw [h.byKey_folded hk, if_neg, hi]
  rintro rfl
  rw [hnone] at hi
  cases hi

theorem Joins.separates (ht : t.Separates) (hfound : ∀ (k : String) (i : TypeId), t.byKey[k]? = some i → i < t.size)
    (h : t.Joins ty t₁) : t₁.Separates := by
  intro k l i hk hl hki hli
  rw [h.byKey_folded hk] at hki
  rw [h.byKey_folded hl] at hli
  split at hki <;> split at hli
  · next hik hil => exact hik.symm.trans hil
  · cases hki
    exact absurd (hfound l _ hli) (Nat.lt_irrefl _)
  · cases hli
    exact absurd (hfound k _ hki) (Nat.lt_irrefl _)
  · exact ht k l i hk hl hki hli

/-! ### Requests -/

theorem keepsFolded_run {r : TypeRequest} (h : r.run t = .ok (i, t₁)) : t.KeepsFolded t₁ := by
  rcases TypeRequest.run_cases h with rfl | ⟨kind, nullable, h, -⟩
  · exact fun _ _ _ hi => hi
  · rcases TypeM.intern_cases h with ⟨-, rfl⟩ | ⟨hnone, -, hjoins, -⟩
    · exact fun _ _ _ hi => hi
    · exact hjoins.keepsFolded hnone

theorem Separates.run (ht : t.Separates) (hhoused : t.Housed) {r : TypeRequest}
    (h : r.run t = .ok (i, t₁)) : t₁.Separates := by
  rcases TypeRequest.run_cases h with rfl | ⟨kind, nullable, h, -⟩
  · exact ht
  · rcases TypeM.intern_cases h with ⟨-, rfl⟩ | ⟨-, -, hjoins, -⟩
    · exact ht
    · exact hjoins.separates ht hhoused.found

theorem separates_initial (nullCasts : Bool) : (initial nullCasts).Separates := by
  intro k l i _ _ hk hl
  obtain ⟨p, hp, rfl⟩ := ((holdsNatives_initial nullCasts).byKey k i).1 hk
  obtain ⟨p', hp', rfl⟩ := ((holdsNatives_initial nullCasts).byKey l i).1 hl
  rw [Option.some.inj (hp.symm.trans hp')]

/-- By induction on how the table came about. -/
theorem Attained.separates (ht : t.Attained) : t.Separates := by
  induction ht with
  | initial nullCasts => exact separates_initial nullCasts
  | request ht hrun ih => exact ih.run ht.housed hrun
  | aside _ _ hkeys ih =>
    intro k l i hk hl hki hli
    rw [hkeys] at hki hli
    exact ih k l i hk hl hki hli

/-- A row of requests, whatever they ask for. -/
theorem Attained.reaches (ht : t.Attained) (h : Reaches (fun _ => True) t t₁) :
    t₁.Attained ∧ t.KeepsFolded t₁ := by
  induction h with
  | refl => exact ⟨ht, fun _ _ _ hi => hi⟩
  | step _ _ hrun ih => exact ⟨ih.1.request hrun, ih.2.trans (keepsFolded_run hrun)⟩

/-! ### Types of classes -/

theorem fold_foldedText (q : ClassName) : Text.fold q.foldedText = q.foldedText :=
  Text.fold_fold q.text

/-- The type of a class is found under the folded name of the class from then on. -/
theorem exists_classType (ht : t.Attained) (hq : q.Typable) :
    ∃ i t₁, TypeM.classType q t = .ok (i, t₁) ∧ t₁.Attained ∧ t.KeepsFolded t₁ ∧
      t₁.byKey[q.foldedText]? = some i := by
  have hin : ∀ e ∈ (TypeKind.object q []).embedded, e < t.size := by simp [TypeKind.embedded]
  have hident : t.identity (normalize (.object q []) false) = q.foldedText := String.empty_append
  obtain ⟨⟨i, t₁⟩, hintern⟩ : ∃ r, TypeM.intern (.object q []) false t = .ok r :=
    ⟨_, by rw [TypeM.intern, dif_pos hin]⟩
  have hrun : TypeM.classType q t = .ok (i, t₁) := by
    rw [TypeM.classType, TypeM.classTypeWith, TypeM.make_of_typable hq, hintern]
  have hrequest : (TypeRequest.classType q []).run t = .ok (i, t₁) := hrun
  refine ⟨i, t₁, hrun, ht.request hrequest, keepsFolded_run hrequest, ?_⟩
  rcases TypeM.intern_cases hintern with ⟨hfinds, rfl⟩ | ⟨-, rfl, hjoins, -⟩
  · rw [← hident]
    exact hfinds
  · rw [hjoins.byKey_folded (fold_foldedText q), if_pos hident]

/-- Two classes have one type, now and later, exactly when their folded names are one text. -/
theorem classType_eq_iff (ht : t.Attained) (hq : q.Typable) (hr : r.Typable) :
    ∃ i t₁, TypeM.classType q t = .ok (i, t₁) ∧ ∀ t₂, Reaches (fun _ => True) t₁ t₂ →
      ∃ j t₃, TypeM.classType r t₂ = .ok (j, t₃) ∧ (q.foldedText = r.foldedText ↔ i = j) := by
  obtain ⟨i, t₁, hrun, ht₁, -, hi⟩ := exists_classType ht hq
  refine ⟨i, t₁, hrun, fun t₂ hreach => ?_⟩
  obtain ⟨ht₂, hkeeps₂⟩ := ht₁.reaches hreach
  obtain ⟨j, t₃, hrun', ht₃, hkeeps₃, hj⟩ := exists_classType ht₂ hr
  have hi' : t₃.byKey[q.foldedText]? = some i :=
    (hkeeps₂.trans hkeeps₃) _ i (fold_foldedText q) hi
  refine ⟨j, t₃, hrun', fun heq => ?_, ?_⟩
  · rw [heq, hj] at hi'
    exact (Option.some.inj hi').symm
  · rintro rfl
    exact ht₃.separates _ _ i (fold_foldedText q) (fold_foldedText r) hi' hj

end TypeTable

namespace QualifiedName

/-- Class names are one wherever they are compared. Whatever the texts are that they are read from,
reading the full name of one gives it again; and that two of them are the same part by part says as
much as that they have one folded text, that one is spelled by the full name of the other, that they
feed the same bytes to a hash function, and, if types of classes can have these names at all, that
they have one type in every table that has come about, however much later the second is asked for. -/
theorem sameClass_iff_classType (x y : String) :
    ofFullName (ofFullName x).text = ofFullName x ∧
    ((ofFullName x).sameClass (ofFullName y) = true ↔
      (ofFullName x).foldedText = (ofFullName y).foldedText) ∧
    ((ofFullName x).sameClass (ofFullName y) = true ↔
      (ofFullName x).isNamed (ofFullName y).text = true) ∧
    ((ofFullName x).sameClass (ofFullName y) = true ↔
      (ofFullName x).hashedBytes = (ofFullName y).hashedBytes) ∧
    ((ofFullName x).name ≠ "" → (ofFullName y).name ≠ "" →
      Text.hasChar x '|' = false → Text.hasChar y '|' = false → ∀ t : TypeTable, t.Attained →
        ∃ i t₁, TypeM.classType (ofFullName x) t = .ok (i, t₁) ∧
          ∀ t₂, TypeTable.Reaches (fun _ => True) t₁ t₂ →
            ∃ j t₃, TypeM.classType (ofFullName y) t₂ = .ok (j, t₃) ∧
              ((ofFullName x).sameClass (ofFullName y) = true ↔ i = j)) := by
  have hx : (ofFullName x).Divided := divided_ofFullName x
  have hy : (ofFullName y).Divided := divided_ofFullName y
  have hfolded := sameClass_iff_foldedText hx hy
  refine ⟨hx, hfolded, hfolded.trans (isNamed_text_iff hy).symm, sameClass_iff_hashedBytes, ?_⟩
  intro hxname hyname hxbar hybar t ht
  have hne : ∀ {s : String}, s ≠ "" → s.isEmpty = false := fun hs => by
    rw [← Bool.not_eq_true, String.isEmpty_iff]
    exact hs
  rw [hfolded]
  exact TypeTable.classType_eq_iff ht (typable_ofFullName hxbar (hne hxname))
    (typable_ofFullName hybar (hne hyname))

/-- A class spelled with more separators and in other letter case has the type that it has, and
another class has another one. -/
theorem sameClass_iff_classType_item :
    ∃ i t₁ t₂ t₃ j t₄, TypeM.classType (ofFullName "App\\\\Item") (TypeTable.initial false) =
        .ok (i, t₁) ∧
      TypeM.classType (ofFullName "\\APP\\item") t₁ = .ok (i, t₂) ∧
      TypeM.classType (ofFullName "App\\Item") (TypeTable.initial false) = .ok (i, t₃) ∧
      TypeM.classType (ofFullName "Item") t₃ = .ok (j, t₄) ∧ i ≠ j := by
  obtain ⟨-, -, -, -, hsame⟩ := sameClass_iff_classType "App\\\\Item" "\\APP\\item"
  obtain ⟨-, -, -, -, hother⟩ := sameClass_iff_classType "App\\Item" "Item"
  obtain ⟨i, t₁, hi, hlater⟩ := hsame (by decide) (by decide) (by decide) (by decide)
    (.initial false) (.initial false)
  obtain ⟨j, t₂, hj, hij⟩ := hlater t₁ .refl
  obtain rfl := hij.1 (by decide +kernel)
  obtain ⟨i', t₃, hi', hlater'⟩ := hother (by decide) (by decide) (by decide) (by decide)
    (.initial false) (.initial false)
  obtain ⟨j', t₄, hj', hij'⟩ := hlater' t₃ .refl
  obtain ⟨rfl, -⟩ : i' = i ∧ t₃ = t₁ := by
    rw [show ofFullName "App\\Item" = ofFullName "App\\\\Item" by decide +kernel, hi] at hi'
    cases hi'
    exact ⟨rfl, rfl⟩
  refine ⟨i', t₁, t₂, t₃, j', t₄, hi, hj, hi', hj', fun heq => ?_⟩
  exact absurd (hij'.2 heq) (by decide +kernel)

end QualifiedName

end UnionInference
