import UnionInference.Issue.Kind
import UnionInference.Text.Decimal

/-!
Issues and the log that collects them. The message of an issue is the template of its kind with the
arguments put in one after the other: an argument that itself looks like a numbered place is open to
the arguments after it.
-/

namespace UnionInference

/-- An issue found at a place, with the particulars its message needs. -/
structure Issue where
  file : String
  line : Nat
  kind : IssueKind
  args : List String
  /-- A hint on how to mend it. -/
  suggestion : Option String := none
  deriving DecidableEq, Repr

namespace Issue

/-- Replaces every occurrence of `pattern`, found from left to right, by `value`, after passing over
the first `skip` characters. What was put in is not looked at again. -/
def replaceFrom (pattern value : List Char) : Nat → List Char → List Char
  | _, [] => []
  | skip + 1, _ :: rest => replaceFrom pattern value skip rest
  | 0, c :: rest =>
    if pattern.isPrefixOf (c :: rest) then
      value ++ replaceFrom pattern value (pattern.length - 1) rest
    else c :: replaceFrom pattern value 0 rest

/-- Replaces every occurrence of a text that is not empty. -/
def replaceAll (text pattern value : String) : String :=
  String.ofList (replaceFrom pattern.toList value.toList 0 text.toList)

/-- The place for argument number `i` in a template. -/
def placeholder (i : Nat) : String := "\x7b" ++ Text.decimalNat i ++ "\x7d"

/-- The template with the arguments from number `i` on put in, one after the other. -/
def formatFrom : Nat → String → List String → String
  | _, text, [] => text
  | i, text, arg :: args => formatFrom (i + 1) (replaceAll text (placeholder i) arg) args

/-- The template with all arguments put in, one after the other. -/
def format (template : String) (args : List String) : String := formatFrom 0 template args

/-- The message, with the hint in brackets if there is one. -/
def message (i : Issue) : String :=
  let text := format i.kind.details.template i.args
  match i.suggestion with
  | some hint => text ++ " (" ++ hint ++ ")"
  | none => text

/-- The line that reports the issue. -/
def text (i : Issue) : String :=
  i.file ++ ":" ++ Text.decimalNat i.line ++ " " ++ i.kind.details.category.text ++ " " ++
    i.kind.name ++ " " ++ i.message

/-- Reports are ordered by file, then line, then the number of the kind. -/
def le (a b : Issue) : Bool :=
  if a.file < b.file then true
  else if b.file < a.file then false
  else if a.line < b.line then true
  else if b.line < a.line then false
  else decide (a.kind.code ≤ b.kind.code)

end Issue

/-- The issues reported so far, oldest first. -/
structure IssueLog where
  issues : Array Issue := #[]

namespace IssueLog

/-- The log with no issues. -/
def empty : IssueLog := {}

/-- Reports an issue. -/
def add (l : IssueLog) (i : Issue) : IssueLog := ⟨l.issues.push i⟩

/-- The issues in order. -/
def toList (l : IssueLog) : List Issue := l.issues.toList

/-- The number of issues. -/
def size (l : IssueLog) : Nat := l.issues.size

/-- Whether nothing was reported. -/
def isEmpty (l : IssueLog) : Bool := l.issues.isEmpty

/-- The number of issues of one kind. -/
def count (l : IssueLog) (k : IssueKind) : Nat :=
  (l.toList.filter fun i => i.kind.code == k.code).length

/-- Whether an issue of the kind was reported. -/
def has (l : IssueLog) (k : IssueKind) : Bool := decide (0 < l.count k)

/-- The names of the issues in order. -/
def names (l : IssueLog) : List String := l.toList.map fun i => i.kind.name

/-- Appends the issues of another log. -/
def append (l other : IssueLog) : IssueLog := ⟨l.issues ++ other.issues⟩

/-- Orders the reports; those of one place and kind keep their order. -/
def sort (l : IssueLog) : IssueLog := ⟨(l.toList.mergeSort Issue.le).toArray⟩

/-- The issues reported after the first `n`. -/
def since (l : IssueLog) (n : Nat) : List Issue := l.toList.drop n

end IssueLog

end UnionInference
