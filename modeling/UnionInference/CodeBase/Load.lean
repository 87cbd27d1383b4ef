import UnionInference.CodeBase.Basic

/-!
Loading classes on demand. A class that is not registered is looked for among the announced ones and
then asked of the resolver. A class that is being loaded counts as missing, so a resolver may look
up the very class it is loading; every look-up comes to an end because the classes that are being
loaded grow with each step down.
-/

namespace UnionInference

namespace ResolverEntry

/-- The entries for classes that are not being loaded. -/
def idle (entries : List ResolverEntry) (loading : List QualifiedName) : List ResolverEntry :=
  entries.filter fun e => !loading.contains e.name.fold

/-- The entry for a class. -/
def find? (entries : List ResolverEntry) (name : ClassName) : Option ResolverEntry :=
  entries.find? fun e => e.name.sameClass name

/-- Loading one more class leaves fewer entries for classes that are not being loaded. -/
theorem idle_cons_lt {entries : List ResolverEntry} {loading : List QualifiedName}
    {name : ClassName} {e : ResolverEntry} (hf : find? entries name = some e)
    (hl : ¬ loading.contains name.fold = true) :
    (idle entries (name.fold :: loading)).length < (idle entries loading).length := by
  have hname : e.name.fold = name.fold := by
    have := List.find?_some hf
    simpa [QualifiedName.sameClass] using this
  have hmem : e ∈ idle entries loading := by
    simp only [idle, List.mem_filter]
    exact ⟨List.mem_of_find?_eq_some hf, by simpa [hname] using hl⟩
  have hsub : idle entries (name.fold :: loading) =
      (idle entries loading).filter fun x => !(x.name.fold == name.fold) := by
    simp only [idle, List.filter_filter]
    congr 1
    funext x
    simp only [List.contains_cons, Bool.not_or]
  rw [hsub]
  exact List.length_filter_lt_length_iff_exists.2 ⟨e, hmem, by simp [hname]⟩

end ResolverEntry

namespace CodeBase

set_option linter.unusedVariables false in
/-- Whether the class is registered, after loading it if it can be. `loading` holds the classes that
are being loaded. -/
def loadClass (entries : Option (List ResolverEntry)) (loading : List QualifiedName)
    (name : ClassName) : BaseM Bool := do
  let b ← get
  if b.isRegistered name then return true
  else if hl : loading.contains name.fold then return false
  else
    match b.pending[name.fold]? with
    | some p =>
      set ({ b with pending := b.pending.erase name.fold } : CodeBase)
      modify fun b => (b.log (.load p.announcedAs)).addDefinition p.definition
      return (← get).isRegistered name
    | none =>
      match entries with
      | none => return false
      | some rows =>
        modify fun b => b.log (.resolve name)
        match hf : ResolverEntry.find? rows name with
        | none => return false
        | some e =>
          e.before.forM fun other => do
            let found ← loadClass (some rows) (name.fold :: loading) other
            modify fun b => b.log (.before other found)
          modify fun b => e.definitions.foldl addDefinition b
          e.after.forM fun other => do
            let found ← loadClass (some rows) (name.fold :: loading) other
            modify fun b => b.log (.after other found)
          return e.found && (← get).isRegistered name
termination_by (ResolverEntry.idle (entries.getD []) loading).length
decreasing_by all_goals exact ResolverEntry.idle_cons_lt hf hl

/-- Whether the class exists, after loading it if it can be. -/
def hasClass (name : ClassName) : BaseM Bool := do
  loadClass (← get).resolver [] name

end CodeBase

end UnionInference
