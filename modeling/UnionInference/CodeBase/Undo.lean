import UnionInference.Name
import UnionInference.Table.Multi

/-!
Which file registered which element, so that a file's elements can be taken back.
-/

namespace UnionInference

/-- An element that was registered. -/
inductive UndoEntry where
  | classDecl (name : ClassName)
  | method (name : MemberName)
  | property (name : MemberName)
  | classConstant (name : MemberName)
  | function (name : FunctionName)
  | globalConstant (name : ConstantName)
  deriving DecidableEq, Repr

/-- What kind of element was registered, and its name. -/
def UndoEntry.text : UndoEntry → String
  | .classDecl n => "class " ++ n.text
  | .method n => "method " ++ n.text
  | .property n => "property " ++ n.propertyText
  | .classConstant n => "class_constant " ++ n.text
  | .function n => "function " ++ n.text
  | .globalConstant n => "constant " ++ n.text

/-- The file that is being read, and what each file registered. -/
structure UndoLog where
  current : Option String := none
  entries : MultiTable String UndoEntry := {}

namespace UndoLog

/-- The log with nothing in it. -/
def empty : UndoLog := {}

/-- Sets the file that is being read. -/
def setFile (l : UndoLog) (file : Option String) : UndoLog := { l with current := file }

/-- Ascribes an element to the file that is being read. What is registered outside of files stays.
-/
def record (l : UndoLog) (e : UndoEntry) : UndoLog :=
  match l.current with
  | some file => { l with entries := l.entries.insert file e }
  | none => l

/-- Takes out what a file registered, the newest first. -/
def takeFile (l : UndoLog) (file : String) : Option (List UndoEntry) × UndoLog :=
  let (entries, rest) := l.entries.take file
  (entries.map List.reverse, { l with entries := rest })

/-- The number of files with entries. -/
def fileCount (l : UndoLog) : Nat := l.entries.size

end UndoLog

end UnionInference
