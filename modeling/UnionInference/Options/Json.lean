import UnionInference.Options.Basic
import UnionInference.Text.Decimal

/-!
Options as a JSON text. The text is one object whose known keys set options, or one array that lists
their values in order; what is left out keeps its default. A known key may stand once, its value has
exactly the type of the option, and unknown keys are passed over.
-/

namespace UnionInference.Options

/-- A JSON value. Strings and keys are kept as they are written, between their quotes, and numbers
as their numerals. -/
inductive Json where
  | null
  | bool (value : Bool)
  | number (numeral : List Char)
  | string (body : List Char)
  | array (items : List Json)
  | object (members : List (List Char × Json))

namespace Json

/-- The blanks that may stand between the parts of a JSON text. -/
def isSpace (c : Char) : Bool := c == ' ' || c == '\n' || c == '\t' || c == '\r'

/-- The text without the blanks in front. -/
def skipSpace (cs : List Char) : List Char := cs.dropWhile isSpace

/-- Whether the character is a hexadecimal digit. -/
def isHex (c : Char) : Bool :=
  c.isDigit || (decide ('a' ≤ c) && decide (c ≤ 'f')) || (decide ('A' ≤ c) && decide (c ≤ 'F'))

/-- The body of a string and the text after its closing quote. Control characters are refused, and a
backslash starts one of the known escapes. -/
def stringBody : List Char → Option (List Char × List Char)
  | '"' :: rest => some ([], rest)
  | '\\' :: 'u' :: a :: b :: c :: d :: rest =>
    if isHex a && isHex b && isHex c && isHex d then
      (stringBody rest).map fun r => ('\\' :: 'u' :: a :: b :: c :: d :: r.1, r.2)
    else none
  | '\\' :: e :: rest =>
    if ['"', '\\', '/', 'b', 'f', 'n', 'r', 't'].contains e then
      (stringBody rest).map fun r => ('\\' :: e :: r.1, r.2)
    else none
  | c :: rest =>
    if c = '\\' ∨ c.toNat < 0x20 then none else (stringBody rest).map fun r => (c :: r.1, r.2)
  | [] => none

/-- A row of at least one digit and the rest. -/
def digits1 (cs : List Char) : Option (List Char × List Char) :=
  let ds := cs.takeWhile Char.isDigit
  if ds.isEmpty then none else some (ds, cs.dropWhile Char.isDigit)

/-- The whole part of a numeral: a single zero, or digits that start with another one. -/
def wholePart : List Char → Option (List Char × List Char)
  | '0' :: rest => if (rest.head?.map Char.isDigit).getD false then none else some (['0'], rest)
  | cs => digits1 cs

/-- The fraction of a numeral, which may be missing. -/
def fractionPart : List Char → Option (List Char × List Char)
  | '.' :: rest => (digits1 rest).map fun r => ('.' :: r.1, r.2)
  | cs => some ([], cs)

/-- The sign of an exponent, which may be missing. -/
def exponentSign : List Char → List Char × List Char
  | '+' :: rest => (['+'], rest)
  | '-' :: rest => (['-'], rest)
  | cs => ([], cs)

/-- The exponent of a numeral, which may be missing. -/
def exponentPart : List Char → Option (List Char × List Char)
  | c :: rest =>
    if c = 'e' ∨ c = 'E' then
      let sign := exponentSign rest
      (digits1 sign.2).map fun r => (c :: sign.1 ++ r.1, r.2)
    else some ([], c :: rest)
  | [] => some ([], [])

/-- A numeral without its sign. -/
def unsignedNumeral (cs : List Char) : Option (List Char × List Char) := do
  let (whole, cs) ← wholePart cs
  let (fraction, cs) ← fractionPart cs
  let (exponent, cs) ← exponentPart cs
  return (whole ++ fraction ++ exponent, cs)

/-- A numeral. -/
def numeral : List Char → Option (List Char × List Char)
  | '-' :: rest => (unsignedNumeral rest).map fun r => ('-' :: r.1, r.2)
  | cs => unsignedNumeral cs

/-- The text after a word. -/
def afterWord (word : String) (cs : List Char) : Option (List Char) :=
  if word.toList.isPrefixOf cs then some (cs.drop word.length) else none

mutual

/-- A value and the text after it. The number bounds the steps. -/
def value : Nat → List Char → Option (Json × List Char)
  | 0, _ => none
  | n + 1, cs =>
    match skipSpace cs with
    | 'n' :: rest => (afterWord "ull" rest).map fun r => (.null, r)
    | 't' :: rest => (afterWord "rue" rest).map fun r => (.bool true, r)
    | 'f' :: rest => (afterWord "alse" rest).map fun r => (.bool false, r)
    | '"' :: rest => (stringBody rest).map fun r => (.string r.1, r.2)
    | '[' :: rest =>
      match skipSpace rest with
      | ']' :: rest => some (.array [], rest)
      | rest => (items n rest).map fun r => (.array r.1, r.2)
    | '\x7b' :: rest =>
      match skipSpace rest with
      | '\x7d' :: rest => some (.object [], rest)
      | rest => (members n rest).map fun r => (.object r.1, r.2)
    | rest => (numeral rest).map fun r => (.number r.1, r.2)

/-- The items of an array from the first one on. -/
def items : Nat → List Char → Option (List Json × List Char)
  | 0, _ => none
  | n + 1, cs => do
    let (item, cs) ← value n cs
    match skipSpace cs with
    | ',' :: rest => (items n rest).map fun r => (item :: r.1, r.2)
    | ']' :: rest => some ([item], rest)
    | _ => none

/-- The members of an object from the first one on. -/
def members : Nat → List Char → Option (List (List Char × Json) × List Char)
  | 0, _ => none
  | n + 1, cs => do
    match skipSpace cs with
    | '"' :: rest =>
      let (key, rest) ← stringBody rest
      match skipSpace rest with
      | ':' :: rest =>
        let (item, rest) ← value n rest
        match skipSpace rest with
        | ',' :: rest => (members n rest).map fun r => ((key, item) :: r.1, r.2)
        | '\x7d' :: rest => some ([(key, item)], rest)
        | _ => none
      | _ => none
    | _ => none

end

/-- The value that makes up the whole text. -/
def read (text : String) : Option Json :=
  match value (2 * text.length + 2) text.toList with
  | some (json, rest) => if (skipSpace rest).isEmpty then some json else none
  | none => none

/-- The value of a hexadecimal digit. -/
def hexValue (c : Char) : Nat :=
  if c.isDigit then c.toNat - '0'.toNat
  else if 'a' ≤ c then c.toNat - 'a'.toNat + 10
  else c.toNat - 'A'.toNat + 10

/-- The number written with four hexadecimal digits. -/
def hex4 (a b c d : Char) : Nat :=
  ((hexValue a * 16 + hexValue b) * 16 + hexValue c) * 16 + hexValue d

/-- The characters that the body of a string stands for. A surrogate has no character of its own: a
high one is followed by a low one, and a low one follows a high one. -/
def decode : List Char → Option (List Char)
  | [] => some []
  | '\\' :: 'u' :: a :: b :: c :: d :: '\\' :: 'u' :: e :: f :: g :: h :: rest =>
    let first := hex4 a b c d
    if first < 0xd800 ∨ 0xdfff < first then
      (decode ('\\' :: 'u' :: e :: f :: g :: h :: rest)).map (Char.ofNat first :: ·)
    else
      let second := hex4 e f g h
      if 0xdc00 ≤ first ∨ second < 0xdc00 ∨ 0xdfff < second then none
      else
        let point := 0x10000 + (first - 0xd800) * 0x400 + (second - 0xdc00)
        (decode rest).map (Char.ofNat point :: ·)
  | '\\' :: 'u' :: a :: b :: c :: d :: rest =>
    let point := hex4 a b c d
    if point < 0xd800 ∨ 0xdfff < point then (decode rest).map (Char.ofNat point :: ·) else none
  | '\\' :: e :: rest =>
    let c :=
      match e with
      | 'b' => '\x08'
      | 'f' => '\x0c'
      | 'n' => '\n'
      | 'r' => '\r'
      | 't' => '\t'
      | e => e
    (decode rest).map (c :: ·)
  | c :: rest => (decode rest).map (c :: ·)

end Json

/-- The options in the order in which an array lists them. -/
inductive Field where
  | nullCastsAsAnyType | scalarArrayKeyCast | ignoreUndeclaredVariablesInGlobalScope
  | hydrateLazily | literalScalarTypes | maxLiteralStringLength | allowMethodParamTypeWidening
  | allowStringKeyUnpack
  deriving DecidableEq, Repr

namespace Field

/-- Every option, in order. -/
def all : List Field :=
  [.nullCastsAsAnyType, .scalarArrayKeyCast, .ignoreUndeclaredVariablesInGlobalScope,
   .hydrateLazily, .literalScalarTypes, .maxLiteralStringLength, .allowMethodParamTypeWidening,
   .allowStringKeyUnpack]

/-- The key of an option. -/
def key : Field → String
  | .nullCastsAsAnyType => "null_casts_as_any_type"
  | .scalarArrayKeyCast => "scalar_array_key_cast"
  | .ignoreUndeclaredVariablesInGlobalScope => "ignore_undeclared_variables_in_global_scope"
  | .hydrateLazily => "hydrate_lazily"
  | .literalScalarTypes => "literal_scalar_types"
  | .maxLiteralStringLength => "max_literal_string_length"
  | .allowMethodParamTypeWidening => "allow_method_param_type_widening"
  | .allowStringKeyUnpack => "allow_string_key_unpack"

/-- The option with the given key. -/
def ofKey? (key : String) : Option Field := all.find? fun f => f.key == key

end Field

/-- A number of bytes: digits alone, below two to the power of 64. -/
def length? : Json → Option Nat
  | .number cs => (Text.digitsValue? cs).filter fun n => decide (n < UInt64.size)
  | _ => none

/-- A switch. -/
def switch? : Json → Option Bool
  | .bool b => some b
  | _ => none

/-- Sets one option. -/
def set? (o : Options) (f : Field) (v : Json) : Option Options :=
  match f with
  | .nullCastsAsAnyType => (switch? v).map fun b => { o with nullCastsAsAnyType := b }
  | .scalarArrayKeyCast => (switch? v).map fun b => { o with scalarArrayKeyCast := b }
  | .ignoreUndeclaredVariablesInGlobalScope =>
    (switch? v).map fun b => { o with ignoreUndeclaredVariablesInGlobalScope := b }
  | .hydrateLazily => (switch? v).map fun b => { o with hydrateLazily := b }
  | .literalScalarTypes => (switch? v).map fun b => { o with literalScalarTypes := b }
  | .maxLiteralStringLength => (length? v).map fun n => { o with maxLiteralStringLength := n }
  | .allowMethodParamTypeWidening =>
    (switch? v).map fun b => { o with allowMethodParamTypeWidening := b }
  | .allowStringKeyUnpack => (switch? v).map fun b => { o with allowStringKeyUnpack := b }

/-- Sets the options named by the members, none of them twice. -/
def ofMembers? : Options → List Field → List (List Char × Json) → Option Options
  | o, _, [] => some o
  | o, seen, (body, v) :: rest => do
    let name ← Json.decode body
    match Field.ofKey? (String.ofList name) with
    | none => ofMembers? o seen rest
    | some f => if seen.contains f then none else ofMembers? (← o.set? f v) (f :: seen) rest

/-- Sets the options from the first one on; there are no more items than options. -/
def ofItems? : Options → List Field → List Json → Option Options
  | o, _, [] => some o
  | _, [], _ :: _ => none
  | o, f :: fs, v :: vs => do ofItems? (← o.set? f v) fs vs

/-- The options that a JSON value stands for. -/
def ofJson? : Json → Option Options
  | .object ms => ofMembers? {} [] ms
  | .array vs => ofItems? {} Field.all vs
  | _ => none

/-! ### Writing options -/

/-- A switch as it is written. -/
def switchText (b : Bool) : String := if b then "true" else "false"

/-- The value of an option as it is written. -/
def valueText (o : Options) : Field → String
  | .nullCastsAsAnyType => switchText o.nullCastsAsAnyType
  | .scalarArrayKeyCast => switchText o.scalarArrayKeyCast
  | .ignoreUndeclaredVariablesInGlobalScope =>
    switchText o.ignoreUndeclaredVariablesInGlobalScope
  | .hydrateLazily => switchText o.hydrateLazily
  | .literalScalarTypes => switchText o.literalScalarTypes
  | .maxLiteralStringLength => Text.decimalNat o.maxLiteralStringLength
  | .allowMethodParamTypeWidening => switchText o.allowMethodParamTypeWidening
  | .allowStringKeyUnpack => switchText o.allowStringKeyUnpack

/-- The options as a JSON object with all keys. -/
def render (o : Options) : String :=
  "\x7b" ++ ",".intercalate (Field.all.map fun f => "\"" ++ f.key ++ "\":" ++ o.valueText f) ++
    "\x7d"

/-! ### Reading options -/

/-- Why options cannot be loaded. -/
inductive LoadError where
  /-- The file cannot be read. -/
  | unreadable (path : String)
  /-- The text is no JSON text of options. -/
  | malformed
  deriving DecidableEq, Repr

/-- Reads options from a JSON text. -/
def parse (text : String) : Except LoadError Options :=
  match (Json.read text).bind ofJson? with
  | some o => .ok o
  | none => .error .malformed

/-- Reads options from the contents of a file, if it has any. -/
def parseFile (path : String) (contents : Option String) : Except LoadError Options :=
  match contents with
  | some text => parse text
  | none => .error (.unreadable path)

end UnionInference.Options
