import UnionInference.Proofs.CodeBase.Expansion

/-!
Remembered expansions are never stale. What is remembered was found in one generation of the code
base, and within a generation classes declare the same; so it is what expansion would find again, in
the table as it is now. Every request either starts a new generation or leaves what classes declare
as it is, also where an expansion loads classes half way through.
-/

namespace UnionInference

/-- The type expands to the union wherever the table holds at least these types and classes declare
what they declare here. -/
def ExpandsTo (t : TypeTable) (b : CodeBase) (id : TypeId) (u : UnionType) : Prop :=
  ∀ (t₂ : TypeTable) (b₂ : CodeBase), t₂.Canonical → t.Extends t₂ → b₂.Loadable →
    b₂.declared? = b.declared? →
    ∃ b₃, expandWithin maxExpansionDepth id (t₂, b₂) = .ok (u, t₂, b₃)

/-- What is remembered was found in this or an earlier generation, and if in this one, then it is
what expansion finds. -/
structure CacheFresh (s : TypeTable × CodeBase) : Prop where
  canonical : s.1.Canonical
  loadable : s.2.Loadable
  generation : s.1.cache.generation ≤ s.2.generation
  expands : s.1.cache.generation = s.2.generation → ∀ (id : TypeId) (u : UnionType),
    s.1.cache.entries[id]? = some u → ExpandsTo s.1 s.2 id u

/-- A new generation starts, or classes declare what they declared. -/
structure CodeBase.Moves (b b' : CodeBase) : Prop where
  loadable : b'.Loadable
  generation : b.generation ≤ b'.generation
  declared : b'.generation = b.generation → b'.declared? = b.declared?

variable {t t' : TypeTable} {b b' b₁ b₂ : CodeBase} {id : TypeId} {u : UnionType}

theorem ExpandsTo.mono (h : ExpandsTo t b id u) (hext : t.Extends t')
    (hd : b'.declared? = b.declared?) : ExpandsTo t' b' id u :=
  fun t₂ b₂ ht₂ hext₂ hb₂ hd₂ => h t₂ b₂ ht₂ (hext.trans hext₂) hb₂ (hd₂.trans hd)

namespace CodeBase

theorem Loads.moves (h : b.Loads b') : b.Moves b' := ⟨h.loadable, h.generation, fun _ => h.declared⟩

theorem SameClasses.moves (h : b.SameClasses b') (hb : b.Loadable) : b.Moves b' := (h.loads hb).moves

theorem Moves.trans (h : b.Moves b₁) (h' : b₁.Moves b₂) : b.Moves b₂ where
  loadable := h'.loadable
  generation := Nat.le_trans h.generation h'.generation
  declared hgen := by
    have hfirst : b₁.generation = b.generation :=
      Nat.le_antisymm (hgen ▸ h'.generation) h.generation
    rw [h'.declared (hgen.trans hfirst.symm), h.declared hfirst]

/-- A new generation may declare anything. -/
theorem Moves.of_changed (h : b'.Loadable) (hgen : b'.generation = b.generation + 1) :
    b.Moves b' :=
  ⟨h, by omega, fun hsame => by omega⟩

theorem Loadable.addClass (h : b.Loadable) (c : ClassDecl) : b.Moves (b.addClass c) :=
  Moves.of_changed ⟨h.resolver, h.classes.insert _ _, h.honest⟩ rfl

theorem Loadable.addDefinition (h : b.Loadable) (d : ClassDefinition) :
    b.Moves (b.addDefinition d) :=
  (h.addClass d.decl).trans
    ((sameClasses_addDefinition b d).moves (h.addClass d.decl).loadable)

/-- Announcing a class by a definition of that class. -/
theorem Loadable.announce (h : b.Loadable) {name : ClassName} {d : ClassDefinition}
    (hd : d.decl.name.fold = name.fold) : b.Moves (b.announce name d) := by
  refine Moves.of_changed ⟨h.resolver, h.classes, fun k p hp => ?_⟩ rfl
  change (b.pending.insert name.fold ⟨name, d⟩)[k]? = some p at hp
  rw [Std.HashMap.getElem?_insert] at hp
  split at hp
  · next hk =>
    cases hp
    exact hd.trans (beq_iff_eq.1 hk)
  · exact h.honest k p hp

theorem Loadable.removeEntry (h : b.Loadable) (e : UndoEntry) : b.Moves (b.removeEntry e).2 := by
  cases e with
  | classDecl name =>
    rw [removeEntry_classDecl]
    split
    · exact Moves.of_changed ⟨h.resolver, h.classes.erase _, h.honest⟩ rfl
    · exact (Loads.refl h).moves
  | _ => exact SameClasses.moves ⟨rfl, rfl, rfl, rfl⟩ h

theorem Loadable.removeEntries (h : b.Loadable) (es : List UndoEntry) :
    b.Moves (b.removeEntries es).2 :=
  removeEntries_induction (P := fun b' => b.Moves b')
    (fun _ e hmoves => hmoves.trans (hmoves.loadable.removeEntry e)) es (Loads.refl h).moves

theorem Loadable.undoFile (h : b.Loadable) (file : String) : b.Moves (b.undoFile file).2 := by
  unfold CodeBase.undoFile
  split
  · exact (Loads.refl h).moves
  · split
    · exact (Loads.refl h).moves
    · rename_i l _ _ entries l' _
      have hl : b.Moves { b with undo := some l' } := SameClasses.moves ⟨rfl, rfl, rfl, rfl⟩ h
      have hr := hl.trans (hl.loadable.removeEntries entries)
      dsimp only
      split
      · exact hr.trans (SameClasses.moves ⟨rfl, rfl, rfl, rfl⟩ hr.loadable)
      · exact hr

/-- Registering elements and taking them back. -/
theorem Loadable.register (h : b.Loadable) (r : Registration) : b.Moves (b.register r) := by
  cases r with
  | classDecl c => exact h.addClass c
  | definition d => exact h.addDefinition d
  | takeBack file => exact h.undoFile file
  | _ => exact SameClasses.moves ⟨rfl, rfl, rfl, rfl⟩ h

end CodeBase

namespace ExpansionCache

theorem generation_sync (c : ExpansionCache) (g : Nat) : (c.sync g).generation = g := by
  unfold sync
  split
  · assumption
  · rfl

theorem sync_of_generation {c : ExpansionCache} {g : Nat} (h : c.generation = g) : c.sync g = c :=
  if_pos h

end ExpansionCache

namespace CacheFresh

/-- Growing tables and moving code bases keep what is remembered fresh. -/
theorem step (h : CacheFresh (t, b)) (ht : t'.Canonical) (hext : t.Extends t')
    (hcache : t'.cache = t.cache) (hb : b.Moves b') : CacheFresh (t', b') where
  canonical := ht
  loadable := hb.loadable
  generation := by
    rw [hcache]
    exact Nat.le_trans h.generation hb.generation
  expands hgen id u hu := by
    rw [hcache] at hgen hu
    -- the generation of the cache lies between the two generations, so they are the same
    have hsame : b'.generation = b.generation :=
      Nat.le_antisymm (hgen ▸ h.generation) hb.generation
    exact (h.expands (hgen.trans hsame) id u hu).mono hext (hb.declared hsame)

/-- Remembering only what expansion finds now. -/
theorem withCache (ht : t.Canonical) (hb : b.Loadable) {c : ExpansionCache}
    (hgen : c.generation = b.generation)
    (hc : ∀ (id : TypeId) (u : UnionType), c.entries[id]? = some u → ExpandsTo t b id u) :
    CacheFresh (t.withCache c, b) where
  canonical := ht.withCache c
  loadable := hb
  generation := Nat.le_of_eq hgen
  expands _ id u hu := (hc id u hu).mono (t.extends_withCache c) rfl

theorem of_empty (ht : t.Canonical) (hb : b.Loadable) (hempty : t.cache = {}) :
    CacheFresh (t, b) where
  canonical := ht
  loadable := hb
  generation := by
    rw [hempty]
    exact Nat.zero_le _
  expands _ id u hu := by
    rw [hempty, Std.HashMap.getElem?_empty] at hu
    cases hu

/-- Forgetting what was found in another generation. -/
theorem sync (h : CacheFresh (t, b)) :
    CacheFresh (t.syncCache b.generation, b) ∧
      (t.syncCache b.generation).cache.generation = b.generation := by
  have hgen := t.cache.generation_sync b.generation
  refine ⟨withCache h.canonical h.loadable hgen fun id u hu => ?_, hgen⟩
  unfold ExpansionCache.sync at hu
  split at hu
  · next heq => exact h.expands heq id u hu
  · simp at hu

end CacheFresh

theorem expandType_apply (id : TypeId) (t : TypeTable) (b : CodeBase) :
    expandType id (t, b) =
      match (t.cache.sync b.generation).entries[id]? with
      | some u => .ok (u, t.syncCache b.generation, b)
      | none =>
        (expandWithin maxExpansionDepth id (t.syncCache b.generation, b)).map fun r =>
          (r.1, (r.2.1.syncCache r.2.2.generation).remember id r.1, r.2.2) := by
  show (match (t.cache.sync b.generation).entries[id]? with
    | some u => (pure u : ExpandM CodeBase UnionType)
    | none => _) (t.syncCache b.generation, b) = _
  cases (t.cache.sync b.generation).entries[id]? with
  | some u => rfl
  | none =>
    show (expandWithin maxExpansionDepth id (t.syncCache b.generation, b) >>= fun r => _) = _
    cases expandWithin maxExpansionDepth id (t.syncCache b.generation, b) <;> rfl

theorem expandType_of_none {t₁ : TypeTable}
    (hnone : (t.cache.sync b.generation).entries[id]? = none)
    (hrun : expandWithin maxExpansionDepth id (t.syncCache b.generation, b) = .ok (u, t₁, b₁)) :
    expandType id (t, b) = .ok (u, (t₁.syncCache b₁.generation).remember id u, b₁) := by
  rw [expandType_apply, hnone, hrun]
  rfl

/-- Steady work leaves the remembered expansions as they are. -/
theorem ExpandM.Steady.cache_eq {α : Type} {p : ExpandM CodeBase α} (hp : ExpandM.Steady p)
    (ht : t.Canonical) (hb : b.Loadable) {a : α} (h : p (t, b) = .ok (a, t', b')) :
    t'.cache = t.cache := by
  have hframe := hp.frame t b t.cache ht hb
  change p (t, b) = _ at hframe
  rw [h] at hframe
  have hsame : t' = t'.withCache t.cache :=
    congrArg (fun r => r.2.1) (Except.ok.inj hframe)
  rw [hsame]
  rfl

/-- The memory makes no difference to what expansion finds, and stays fresh. -/
theorem CacheFresh.expandType (h : CacheFresh (t, b)) (id : TypeId) :
    (expandType id (t, b)).map Prod.fst =
        (expandWithin maxExpansionDepth id (t, b)).map Prod.fst ∧
      ∀ (u : UnionType) (s' : TypeTable × CodeBase),
        expandType id (t, b) = .ok (u, s') → CacheFresh s' := by
  have hsteady := ExpandM.steady_expandWithin maxExpansionDepth id
  have hframe := hsteady.frame t b (t.cache.sync b.generation) h.canonical h.loadable
  change expandWithin maxExpansionDepth id (t.syncCache b.generation, b) = _ at hframe
  obtain ⟨hsync, hgen⟩ := h.sync
  rw [expandType_apply, hframe]
  cases hu : (t.cache.sync b.generation).entries[id]? with
  | some u =>
    -- found before in this generation
    obtain ⟨b₃, hrun⟩ := hsync.expands hgen id u hu t b h.canonical
      ⟨fun _ _ he => he, fun _ _ hk => hk⟩ h.loadable rfl
    rw [hrun]
    refine ⟨rfl, fun u' s' hs => ?_⟩
    cases hs
    exact hsync
  | none =>
    cases hrun : expandWithin maxExpansionDepth id (t, b) with
    | error v => exact ⟨rfl, fun _ _ hs => by cases hs⟩
    | ok r =>
      obtain ⟨u, t₁, b₁⟩ := r
      refine ⟨rfl, fun u' s' hs => ?_⟩
      cases hs
      obtain ⟨hgrows, hloads⟩ := hsteady.grows h.canonical h.loadable hrun
      -- classes may have been loaded meanwhile, so the memory is brought up to date again
      have hstep : CacheFresh (t₁.withCache (t.cache.sync b.generation), b₁) :=
        hsync.step (hgrows.canonical.withCache _)
          ⟨hgrows.keeps.entries, hgrows.keeps.byKey⟩ rfl hloads.moves
      obtain ⟨hsync', hgen'⟩ := hstep.sync
      refine CacheFresh.withCache hsync'.canonical hsync'.loadable hgen' fun i w hw => ?_
      rw [Std.HashMap.getElem?_insert] at hw
      split at hw
      · next hi =>
        obtain rfl := beq_iff_eq.1 hi
        obtain rfl := Option.some.inj hw
        exact fun t₂ b₂ ht₂ hext hb₂ hd => hsteady.repeats h.canonical h.loadable hrun ht₂
          ⟨hext.entries, hext.byKey⟩ hb₂ (hd.trans hloads.declared)
      · exact hsync'.expands hgen' i w hw

end UnionInference
