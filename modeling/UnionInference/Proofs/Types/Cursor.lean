import UnionInference.Proofs.Types.Grammar

/-!
Reading by bytes. A cursor stands at a byte of the text and looks at single bytes; it takes pieces
out of the text only where a character begins, and it gets stuck if it is asked for a piece that
begins or ends anywhere else, or if a loop runs more often than there are bytes. From every place
between two characters the cursor goes the way that reading by characters goes, and what it
complains about is where it says.
-/

namespace UnionInference

namespace TypeParser

/-! ### Pieces of a text -/

/-- The bytes of the characters. -/
def encode (cs : List Char) : List UInt8 := cs.flatMap String.utf8EncodeChar

/-- The bytes of a text. -/
def bytes (s : String) : List UInt8 := s.toByteArray.data.toList

/-- The characters behind so many bytes, if a character begins or the text ends there. -/
def dropBytes : Nat → List Char → Option (List Char)
  | 0, cs => some cs
  | _ + 1, [] => none
  | n + 1, c :: cs => if c.utf8Size ≤ n + 1 then dropBytes (n + 1 - c.utf8Size) cs else none

/-- The characters of so many bytes, if a character begins or the text ends there. -/
def takeBytes : Nat → List Char → Option (List Char)
  | 0, _ => some []
  | _ + 1, [] => none
  | n + 1, c :: cs =>
    if c.utf8Size ≤ n + 1 then (takeBytes (n + 1 - c.utf8Size) cs).map (c :: ·) else none

/-- The piece of a text between two bytes. -/
def slice? (s : String) (i j : Nat) : Option (List Char) :=
  if i ≤ j then (dropBytes i s.toList).bind (takeBytes (j - i)) else none

theorem byteSize_eq_length (cs : List Char) : byteSize cs = (encode cs).length := by
  rw [byteSize, encode, String.utf8ByteSize, String.toByteArray_ofList, List.utf8Encode,
    List.size_toByteArray]

theorem bytes_eq (s : String) : bytes s = encode s.toList := by
  rw [bytes, ← String.utf8Encode_toList, List.utf8Encode, List.toList_data_toByteArray, encode]

theorem encode_append (cs ds : List Char) : encode (cs ++ ds) = encode cs ++ encode ds :=
  List.flatMap_append

theorem byteSize_append (cs ds : List Char) : byteSize (cs ++ ds) = byteSize cs + byteSize ds := by
  rw [byteSize_eq_length, encode_append, List.length_append, ← byteSize_eq_length,
    ← byteSize_eq_length]

theorem byteSize_cons (c : Char) (cs : List Char) :
    byteSize (c :: cs) = c.utf8Size + byteSize cs := by
  rw [byteSize_eq_length, encode, List.flatMap_cons, List.length_append,
    String.length_utf8EncodeChar, ← encode, ← byteSize_eq_length]

theorem length_le_byteSize (cs : List Char) : cs.length ≤ byteSize cs := by
  induction cs with
  | nil => exact Nat.zero_le _
  | cons c cs ih =>
    have := c.utf8Size_pos
    rw [byteSize_cons, List.length_cons]
    omega

theorem dropBytes_byteSize (cs ds : List Char) : dropBytes (byteSize cs) (cs ++ ds) = some ds := by
  induction cs with
  | nil => cases ds <;> rfl
  | cons c cs ih =>
    obtain ⟨n, hn⟩ := Nat.exists_eq_add_of_lt c.utf8Size_pos
    rw [byteSize_cons, List.cons_append]
    have hstep : dropBytes (c.utf8Size + byteSize cs) (c :: (cs ++ ds)) =
        dropBytes (c.utf8Size + byteSize cs - c.utf8Size) (cs ++ ds) := by
      obtain ⟨m, hm⟩ : ∃ m, c.utf8Size + byteSize cs = m + 1 := ⟨n + byteSize cs, by omega⟩
      rw [hm, dropBytes, if_pos (by omega)]
    rw [hstep, Nat.add_sub_cancel_left, ih]

theorem takeBytes_byteSize (cs ds : List Char) : takeBytes (byteSize cs) (cs ++ ds) = some cs := by
  induction cs with
  | nil => cases ds <;> rfl
  | cons c cs ih =>
    obtain ⟨n, hn⟩ := Nat.exists_eq_add_of_lt c.utf8Size_pos
    rw [byteSize_cons, List.cons_append]
    have hstep : takeBytes (c.utf8Size + byteSize cs) (c :: (cs ++ ds)) =
        (takeBytes (c.utf8Size + byteSize cs - c.utf8Size) (cs ++ ds)).map (c :: ·) := by
      obtain ⟨m, hm⟩ : ∃ m, c.utf8Size + byteSize cs = m + 1 := ⟨n + byteSize cs, by omega⟩
      rw [hm, takeBytes, if_pos (by omega)]
    rw [hstep, Nat.add_sub_cancel_left, ih]
    rfl

/-- A piece between two characters is there. -/
theorem slice?_eq {s : String} {before cs rest : List Char}
    (h : s.toList = before ++ (cs ++ rest)) :
    slice? s (byteSize before) (byteSize (before ++ cs)) = some cs := by
  rw [slice?, byteSize_append, if_pos (Nat.le_add_right _ _), h, dropBytes_byteSize,
    Nat.add_sub_cancel_left]
  exact takeBytes_byteSize cs rest

/-! ### Characters and their bytes -/

/-- A byte, taken as a character. -/
abbrev ofByte (b : UInt8) : Char := Char.ofUInt8 b

/-- The first byte of a character, taken as a character itself. -/
def face (c : Char) : Char := ofByte ((String.utf8EncodeChar c).headD 0)

theorem toNat_ofByte (b : UInt8) : (ofByte b).toNat = b.toNat := rfl

theorem encodeChar_narrow {c : Char} (h : c.toNat < 128) :
    ∃ b, String.utf8EncodeChar c = [b] ∧ ofByte b = c := by
  have hval : c.val.toNat ≤ 127 := Nat.le_of_lt_succ h
  refine ⟨UInt8.ofNat c.val.toNat, by rw [String.utf8EncodeChar, if_pos hval], ?_⟩
  refine Char.ext (UInt32.toNat_inj.1 ?_)
  show (UInt8.ofNat c.val.toNat).toNat = c.val.toNat
  rw [UInt8.toNat_ofNat', Nat.mod_eq_of_lt (by omega)]

/-- Every byte of a character outside ASCII is outside ASCII. -/
theorem encodeChar_wide {c : Char} (h : 128 ≤ c.toNat) :
    ∀ b ∈ String.utf8EncodeChar c, 128 ≤ b.toNat := by
  have hval : ¬ c.val.toNat ≤ 127 := Nat.not_le.2 h
  have hbyte : ∀ n, 128 ≤ n % 256 → 128 ≤ (UInt8.ofNat n).toNat := fun n hn => by
    rwa [UInt8.toNat_ofNat']
  rw [String.utf8EncodeChar, if_neg hval]
  split_ifs
  all_goals
    simp only [List.mem_cons, List.not_mem_nil, or_false]
  · rintro b (rfl | rfl) <;> exact hbyte _ (by omega)
  · rintro b (rfl | rfl | rfl) <;> exact hbyte _ (by omega)
  · rintro b (rfl | rfl | rfl | rfl) <;> exact hbyte _ (by omega)

theorem face_narrow {c : Char} (h : c.toNat < 128) : face c = c := by
  obtain ⟨b, hb, hc⟩ := encodeChar_narrow h
  rw [face, hb, List.headD_cons, hc]

theorem encodeChar_eq_cons (c : Char) : ∃ b bs, String.utf8EncodeChar c = b :: bs ∧
    face c = ofByte b := by
  obtain ⟨b, bs, h⟩ := List.exists_cons_of_ne_nil (String.utf8EncodeChar_ne_nil (c := c))
  exact ⟨b, bs, h, by rw [face, h, List.headD_cons]⟩

theorem face_wide {c : Char} (h : 128 ≤ c.toNat) : 128 ≤ (face c).toNat := by
  obtain ⟨b, bs, hbs, hface⟩ := encodeChar_eq_cons c
  rw [hface, toNat_ofByte]
  exact encodeChar_wide h b (hbs ▸ List.mem_cons_self)

/-- The first byte of a character looks like a character of ASCII only if it is that character. -/
theorem face_eq_iff {c d : Char} (hd : d.toNat < 128) : face c = d ↔ c = d := by
  rcases Nat.lt_or_ge c.toNat 128 with h | h
  · rw [face_narrow h]
  · have hne : ∀ {e : Char}, 128 ≤ e.toNat → e ≠ d := fun he => by rintro rfl; omega
    exact iff_of_false (hne (face_wide h)) (hne h)

/-- A test of characters that does not tell those outside ASCII apart. -/
def Bytewise (p : Char → Bool) : Prop := ∀ c d : Char, 128 ≤ c.toNat → 128 ≤ d.toNat → p c = p d

/-- Such a test can be made on any byte of a character. -/
theorem Bytewise.encodeChar {p : Char → Bool} (hp : Bytewise p) {c : Char} :
    ∀ b ∈ String.utf8EncodeChar c, p (ofByte b) = p c := by
  intro b hb
  rcases Nat.lt_or_ge c.toNat 128 with h | h
  · obtain ⟨a, ha, hc⟩ := encodeChar_narrow h
    rw [ha, List.mem_singleton] at hb
    rw [hb, hc]
  · exact hp _ _ (encodeChar_wide h b hb) h

theorem Bytewise.face {p : Char → Bool} (hp : Bytewise p) (c : Char) : p (face c) = p c := by
  obtain ⟨b, bs, hbs, hface⟩ := encodeChar_eq_cons c
  rw [hface]
  exact hp.encodeChar b (hbs ▸ List.mem_cons_self)

theorem bytewise_of_narrow {p : Char → Bool} (h : ∀ c : Char, 128 ≤ c.toNat → p c = false) :
    Bytewise p := fun c d hc hd => by rw [h c hc, h d hd]

theorem ne_of_wide {c d : Char} (hc : 128 ≤ c.toNat) (hd : d.toNat < 128) : c ≠ d := by
  rintro rfl
  omega

theorem not_le_of_wide {c d : Char} (hc : 128 ≤ c.toNat) (hd : d.toNat < 128) :
    ¬ c.val ≤ d.val := by
  rw [UInt32.le_iff_toNat_le]
  exact Nat.not_le.2 (hd.trans_le hc)

theorem isDigit_wide {c : Char} (h : 128 ≤ c.toNat) : c.isDigit = false := by
  rw [Char.isDigit, decide_eq_false (not_le_of_wide (d := '9') h (by decide)), Bool.and_false]

theorem isAlpha_wide {c : Char} (h : 128 ≤ c.toNat) : c.isAlpha = false := by
  have hupper : c.isUpper = false :=
    decide_eq_false fun hc => not_le_of_wide (d := 'Z') h (by decide) hc.2
  have hlower : c.isLower = false := by
    show (_ && decide (c.val ≤ 'z'.val)) = false
    rw [decide_eq_false (not_le_of_wide (d := 'z') h (by decide)), Bool.and_false]
  show (c.isUpper || c.isLower) = false
  rw [hupper, hlower, Bool.or_false]

theorem isWordChar_wide {c : Char} (h : 128 ≤ c.toNat) : ShapeKey.isWordChar c = false := by
  simp [ShapeKey.isWordChar, Char.isAlphanum, isAlpha_wide h, isDigit_wide h,
    ne_of_wide (d := '_') h (by decide)]

theorem bytewise_isSpace : Bytewise isSpace := bytewise_of_narrow fun c h => by
  simp [isSpace, ne_of_wide h]

theorem bytewise_isWordChar : Bytewise ShapeKey.isWordChar :=
  bytewise_of_narrow fun _ h => isWordChar_wide h

theorem bytewise_isNumeralChar : Bytewise isNumeralChar := bytewise_of_narrow fun c h => by
  simp [isNumeralChar, ne_of_wide h, isDigit_wide h]

theorem bytewise_isKeyChar : Bytewise isKeyChar := bytewise_of_narrow fun c h => by
  simp [isKeyChar, ne_of_wide h, isWordChar_wide h]

theorem bytewise_isNameChar : Bytewise isNameChar := fun c d hc hd => by
  simp [isNameChar, isWide, hc, hd]

theorem bytewise_isNameStart : Bytewise isNameStart := fun c d hc hd => by
  simp [isNameStart, isWide, hc, hd]

/-! ### The cursor -/

/-- Reading from the byte at which the cursor stands. There is no outcome where it gets stuck. -/
abbrev CursorM := StateT Nat (ExceptT TypeParseError (OptionT TypeM))

namespace Cursor

variable {α β : Type}

/-- Gets stuck. -/
def stuck : CursorM α := fun _ => (OptionT.fail : OptionT TypeM _)

/-- Work on the table. -/
def types (work : TypeM α) : CursorM α := fun place => (OptionT.lift do
  let a ← work
  return .ok (a, place) : OptionT TypeM _)

/-- Gives up with an error. -/
def fail (e : TypeParseError) : CursorM α := throwThe TypeParseError e

/-- More often than there are bytes no loop runs. -/
def rounds (src : Source) : Nat := (bytes src.input).length + 1

/-- The piece of the text between two bytes. -/
def piece (src : Source) (i j : Nat) : CursorM (List Char) :=
  match slice? src.input i j with
  | some cs => return cs
  | none => stuck

/-- The text from the cursor on. -/
def ahead (src : Source) : CursorM (List Char) := do
  piece src (← get) (bytes src.input).length

/-- The next byte. -/
def peek (src : Source) : CursorM (Option Char) := return (bytes src.input)[← get]?.map ofByte

/-- The next character. -/
def peekChar (src : Source) : CursorM (Option Char) := return (← ahead src).head?

/-- Goes so many bytes on. -/
def advance (n : Nat) : CursorM Unit := modify (· + n)

/-- Goes on over bytes that satisfy a test. The number bounds them. -/
def passWhile (src : Source) (p : Char → Bool) : Nat → CursorM Unit
  | 0 => stuck
  | n + 1 => do
    match ← peek src with
    | some b =>
      if p b then
        advance 1
        passWhile src p n
      else return
    | none => return

/-- Goes on over blanks. -/
def skipSpace (src : Source) : CursorM Unit := passWhile src isSpace (rounds src)

/-- Goes on over bytes that satisfy a test and tells the piece. -/
def takeWhile (src : Source) (p : Char → Bool) : CursorM (List Char) := do
  let start ← get
  passWhile src p (rounds src)
  piece src start (← get)

/-- Goes on over a byte, after blanks, if it comes next. -/
def eat (src : Source) (c : Char) : CursorM Bool := do
  skipSpace src
  if (← peek src) = some c then
    advance 1
    return true
  else return false

/-- Goes on over a text, after blanks, if it comes next. -/
def eatText (src : Source) (token : List Char) : CursorM Bool := do
  skipSpace src
  if token.isPrefixOf (← ahead src) then
    advance (byteSize token)
    return true
  else return false

/-- Complains about a character at the cursor. -/
def unexpected (src : Source) (c : Char) : CursorM α := do
  fail (.unexpectedChar src.input (← get) c)

/-- Complains about the next character. -/
def unexpectedNext (src : Source) : CursorM α := do
  unexpected src ((← peekChar src).getD '\x00')

/-- Goes on over a byte that must come next. -/
def expect (src : Source) (c : Char) : CursorM Unit := do
  if !(← eat src c) then
    match ← peekChar src with
    | some found => unexpected src found
    | none => fail (.unexpectedEnd src.input)

/-- The text inside quotes, and how many bytes stand before the closing one. -/
def quotedAt : Nat → List Char → Option (List Char × Nat)
  | n, '\'' :: _ => some ([], n)
  | n, '\\' :: c :: rest =>
    (quotedAt (n + 1 + c.utf8Size) rest).map fun r =>
      (if c = '\\' ∨ c = '\'' then c :: r.1 else '\\' :: c :: r.1, r.2)
  | _, ['\\'] => none
  | n, c :: rest => (quotedAt (n + c.utf8Size) rest).map fun r => (c :: r.1, r.2)
  | _, [] => none

/-- A text in quotes, of which the first one comes next. -/
def quotedText (src : Source) : CursorM String := do
  advance 1
  match quotedAt 0 (← ahead src) with
  | some (body, n) =>
    advance (n + 1)
    return String.ofList body
  | none => fail (.unexpectedEnd src.input)

/-- A name, with the sign of a variable in front or without. -/
def name (src : Source) : CursorM (List Char) := do
  let start ← get
  if (← peek src) = some '$' then advance 1
  let _ ← takeWhile src isNameChar
  piece src start (← get)

end Cursor

/-! ### Agreement -/

/-- The error carries the whole text; the character that it complains about, if there is one, starts
at the byte that it tells. -/
def Located (input : String) : TypeParseError → Prop
  | .unexpectedChar text offset c => text = input ∧
    ∃ before after, input.toList = before ++ c :: after ∧ offset = byteSize before
  | .unexpectedEnd text | .invalidName text _ | .invalidLiteral text _ | .tooDeep text _
  | .notSingleType text => text = input

variable {α β : Type}

/-- Reading by bytes and by characters have the same outcome, between the characters that were
passed before and those that were left: both violate something, or give up with an error that tells
a true place, or come to the same place between characters. -/
inductive Same (src : Source) (before cs : List Char) :
    Except Violation (Option (Except TypeParseError (α × Nat)) × TypeTable) →
    Except Violation (Except TypeParseError (α × List Char) × TypeTable) → Prop
  | violation (v : Violation) : Same src before cs (.error v) (.error v)
  | complaint {e : TypeParseError} {t : TypeTable} : Located src.input e →
      Same src before cs (.ok (some (.error e), t)) (.ok (.error e, t))
  | goes {a : α} {passed rest : List Char} {t : TypeTable} : cs = passed ++ rest →
      Same src before cs (.ok (some (.ok (a, byteSize (before ++ passed))), t))
        (.ok (.ok (a, rest), t))

/-- From the place between the characters the cursor has the outcome that reading has, whatever the
table. -/
def Agrees (src : Source) (q : CursorM α) (p : ParseM α) (before cs : List Char) : Prop :=
  src.input.toList = before ++ cs → ∀ t, Same src before cs (q (byteSize before) t) (p cs t)

section

variable {src : Source} {q : CursorM α} {p : ParseM α} {f : α → ParseM β} {g : α → CursorM β}
  {before cs passed rest : List Char} {t t' : TypeTable} {place place' : Nat} {a : α}

/-- The cursor goes from one place and table to another ones and gives the value. -/
def Moves (q : CursorM α) (place : Nat) (t : TypeTable) (a : α) (place' : Nat) (t' : TypeTable) :
    Prop := q place t = .ok (some (.ok (a, place')), t')

theorem bind_of_moves (h : Moves q place t a place' t') : (q >>= g) place t = g a place' t' := by
  show Except.bind (q place t) _ = _
  rw [h]
  rfl

theorem Same.behind {x : Except Violation (Option (Except TypeParseError (α × Nat)) × TypeTable)}
    {y : Except Violation (Except TypeParseError (α × List Char) × TypeTable)}
    (hcs : cs = passed ++ rest) (h : Same src (before ++ passed) rest x y) :
    Same src before cs x y := by
  cases h with
  | violation v => exact .violation v
  | complaint he => exact .complaint he
  | goes hrest =>
    rw [List.append_assoc]
    exact .goes (by rw [hcs, hrest, List.append_assoc])

theorem Agrees.bind (h : Agrees src q p before cs)
    (hf : ∀ a passed rest, cs = passed ++ rest →
      Agrees src (g a) (f a) (before ++ passed) rest) :
    Agrees src (q >>= g) (p >>= f) before cs := by
  intro hsrc t
  have hsame := h hsrc t
  generalize hq : q (byteSize before) t = x at hsame
  generalize hp : p cs t = y at hsame
  cases hsame with
  | violation v =>
    show Same src before cs (Except.bind (q (byteSize before) t) _) (Except.bind (p cs t) _)
    rw [hq, hp]
    exact .violation v
  | complaint he =>
    show Same src before cs (Except.bind (q (byteSize before) t) _) (Except.bind (p cs t) _)
    rw [hq, hp]
    exact .complaint he
  | goes hcs =>
    rw [bind_of_moves hq, bind_of_gives hp]
    exact (hf _ _ _ hcs (by rw [hsrc, hcs, List.append_assoc]) _).behind hcs

/-- A step that only the cursor takes, and that leaves it where it stands. -/
theorem Agrees.afterCursor {r : ParseM β}
    (hq : src.input.toList = before ++ cs → ∀ t, Moves q (byteSize before) t a (byteSize before) t)
    (h : Agrees src (g a) r before cs) : Agrees src (q >>= g) r before cs := fun hsrc t => by
  rw [bind_of_moves (hq hsrc t)]
  exact h hsrc t

/-- A step that only reading by characters takes, and that passes over none. -/
theorem Agrees.afterReader {r : CursorM β} (hp : ∀ t, Gives p cs t a cs t)
    (h : Agrees src r (f a) before cs) : Agrees src r (p >>= f) before cs := fun hsrc t => by
  rw [bind_of_gives (hp t)]
  exact h hsrc t

/-- Where both come to the same place between characters. -/
theorem Agrees.of_moves (hcs : cs = passed ++ rest)
    (hq : src.input.toList = before ++ cs →
      ∀ t, Moves q (byteSize before) t a (byteSize (before ++ passed)) t)
    (hp : ∀ t, Gives p cs t a rest t) : Agrees src q p before cs := fun hsrc t => by
  rw [hq hsrc t, hp t]
  exact .goes hcs

/-- A step that brings both to the same place between characters. -/
theorem Agrees.step {b : α} {f : α → ParseM β} (hcs : cs = passed ++ rest)
    (hq : src.input.toList = before ++ cs →
      ∀ t, Moves q (byteSize before) t a (byteSize (before ++ passed)) t)
    (hp : ∀ t, Gives p cs t b rest t) (h : Agrees src (g a) (f b) (before ++ passed) rest) :
    Agrees src (q >>= g) (p >>= f) before cs := fun hsrc t => by
  rw [bind_of_moves (hq hsrc t), bind_of_gives (hp t)]
  exact (h (by rw [hsrc, hcs, List.append_assoc]) t).behind hcs

theorem agrees_pure (a : α) : Agrees src (pure a) (pure a) before cs := by
  refine Agrees.of_moves (List.nil_append cs).symm (fun _ t => ?_) fun t => gives_pure a
  rw [List.append_nil]
  rfl

theorem agrees_fail {e : TypeParseError} (he : Located src.input e) :
    Agrees src (Cursor.fail (α := α) e) (fail e) before cs := fun _ _ => .complaint he

theorem agrees_types (work : TypeM α) :
    Agrees src (Cursor.types work) (types work) before cs := by
  intro _ t
  show Same src before cs (Except.bind (Except.bind (work t) _) _)
    (Except.bind (Except.bind (work t) _) _)
  cases work t with
  | error v => exact .violation v
  | ok r =>
    have hgoes : Same src before cs (.ok (some (.ok (r.1, byteSize (before ++ []))), r.2))
        (.ok (.ok (r.1, cs), r.2)) := .goes rfl
    rwa [List.append_nil] at hgoes

/-! ### Single steps -/

namespace Cursor

theorem moves_get (place : Nat) (t : TypeTable) : Moves get place t place place t := rfl

theorem moves_advance (n place : Nat) (t : TypeTable) :
    Moves (advance n) place t ⟨⟩ (place + n) t := rfl

theorem moves_piece {s : List Char} (rest : List Char)
    (hsrc : src.input.toList = before ++ (s ++ rest)) :
    Moves (piece src (byteSize before) (byteSize (before ++ s))) place t s place t := by
  rw [piece, slice?_eq hsrc]
  rfl

theorem moves_ahead (hsrc : src.input.toList = before ++ cs) :
    Moves (ahead src) (byteSize before) t cs (byteSize before) t := by
  have hend : (bytes src.input).length = byteSize (before ++ cs) := by
    rw [bytes_eq, hsrc, byteSize_eq_length]
  rw [Moves, ahead, bind_of_moves (moves_get _ t), hend]
  exact moves_piece [] (by rw [List.append_nil, hsrc])

theorem moves_peekChar (hsrc : src.input.toList = before ++ cs) :
    Moves (peekChar src) (byteSize before) t cs.head? (byteSize before) t := by
  rw [Moves, peekChar, bind_of_moves (moves_ahead hsrc)]
  rfl

theorem moves_peek_byte {o : Option UInt8} (h : (bytes src.input)[place]? = o) :
    Moves (peek src) place t (o.map ofByte) place t := by
  rw [Moves, peek, bind_of_moves (moves_get _ t), h]
  rfl

/-- The cursor sees the first byte of the next character. -/
theorem moves_peek (hsrc : src.input.toList = before ++ cs) :
    Moves (peek src) (byteSize before) t (cs.head?.map face) (byteSize before) t := by
  have hbyte : (bytes src.input)[byteSize before]? = (encode cs).head? := by
    rw [bytes_eq, hsrc, encode_append, byteSize_eq_length,
      List.getElem?_append_right (Nat.le_refl _), Nat.sub_self, List.head?_eq_getElem?]
  have hface : (encode cs).head?.map ofByte = cs.head?.map face := by
    cases cs with
    | nil => rfl
    | cons c cs =>
      obtain ⟨b, bs, hbs, hface⟩ := encodeChar_eq_cons c
      rw [encode, List.flatMap_cons, hbs, List.head?_cons, Option.map_some, hface]
      rfl
  exact hface ▸ moves_peek_byte hbyte

/-- The cursor goes on over a row of bytes that satisfy the test, up to one that does not. -/
theorem moves_passWhile_bytes {p : Char → Bool} {run after : List UInt8} :
    ∀ (ahead : List UInt8) (n : Nat), bytes src.input = ahead ++ (run ++ after) →
      (∀ b ∈ run, p (ofByte b) = true) → (∀ b ∈ after.head?, p (ofByte b) = false) →
      run.length < n →
      Moves (passWhile src p n) ahead.length t ⟨⟩ (ahead.length + run.length) t := by
  induction run with
  | nil =>
    intro ahead n hbytes _ hafter hn
    obtain ⟨n, rfl⟩ := Nat.exists_eq_add_of_lt hn
    have hpeek : Moves (peek src) ahead.length t (after.head?.map ofByte) ahead.length t :=
      moves_peek_byte (by
        rw [hbytes, List.nil_append, List.getElem?_append_right (Nat.le_refl _), Nat.sub_self,
          List.head?_eq_getElem?])
    rw [Moves, passWhile, bind_of_moves hpeek]
    cases hhead : after.head? with
    | none => rfl
    | some b => simp only [Option.map_some, hafter b hhead]; rfl
  | cons b run ih =>
    intro ahead n hbytes hrun hafter hn
    obtain ⟨n, rfl⟩ := Nat.exists_eq_add_of_lt hn
    have hpeek : Moves (peek src) ahead.length t (some (ofByte b)) ahead.length t :=
      moves_peek_byte (o := some b) (by
        rw [hbytes, List.getElem?_append_right (Nat.le_refl _), Nat.sub_self]; rfl)
    have hmore := ih (ahead ++ [b]) ((b :: run).length + n) (by simpa using hbytes)
      (fun a ha => hrun a (List.mem_cons_of_mem b ha)) hafter (by rw [List.length_cons]; omega)
    have hplace : ahead.length + (b :: run).length = (ahead ++ [b]).length + run.length := by
      simp only [List.length_append, List.length_cons, List.length_nil]
      omega
    rw [Moves, hplace, passWhile, bind_of_moves hpeek]
    simp only [hrun b List.mem_cons_self, if_true]
    rw [bind_of_moves (moves_advance 1 _ t), ← List.length_singleton (a := b), ← List.length_append]
    exact hmore

/-- The cursor goes on over the characters that satisfy a test of bytes. -/
theorem moves_passWhile {p : Char → Bool} (hp : Bytewise p)
    (hsrc : src.input.toList = before ++ cs) :
    Moves (passWhile src p (rounds src)) (byteSize before) t ⟨⟩
      (byteSize (before ++ cs.takeWhile p)) t := by
  have hbytes : bytes src.input =
      encode before ++ (encode (cs.takeWhile p) ++ encode (cs.dropWhile p)) := by
    rw [bytes_eq, hsrc, encode_append, ← encode_append _ (cs.dropWhile p),
      List.takeWhile_append_dropWhile]
  have hrun : ∀ b ∈ encode (cs.takeWhile p), p (ofByte b) = true := by
    intro b hb
    obtain ⟨c, hc, hbc⟩ := List.mem_flatMap.1 hb
    rw [hp.encodeChar b hbc]
    exact List.mem_takeWhile_imp hc
  have hafter : ∀ b ∈ (encode (cs.dropWhile p)).head?, p (ofByte b) = false := by
    intro b hb
    have hnot := List.head?_dropWhile_not p cs
    cases hdrop : cs.dropWhile p with
    | nil => rw [hdrop] at hb; cases hb
    | cons c ds =>
      rw [hdrop, encode, List.flatMap_cons] at hb
      rw [hdrop, List.head?_cons] at hnot
      obtain ⟨a, as, has, -⟩ := encodeChar_eq_cons c
      rw [has, List.cons_append, List.head?_cons, Option.mem_some_iff] at hb
      rw [← hb, hp.encodeChar a (has ▸ List.mem_cons_self)]
      simpa using hnot
  have hlen : (encode (cs.takeWhile p)).length < rounds src := by
    rw [rounds, hbytes, List.length_append, List.length_append]
    omega
  have hmoves := moves_passWhile_bytes (t := t) _ _ hbytes hrun hafter hlen
  rwa [← byteSize_eq_length, ← byteSize_eq_length, ← byteSize_append] at hmoves

theorem moves_skipSpace (hsrc : src.input.toList = before ++ cs) :
    Moves (skipSpace src) (byteSize before) t ⟨⟩ (byteSize (before ++ cs.takeWhile isSpace)) t :=
  moves_passWhile bytewise_isSpace hsrc

theorem moves_takeWhile {p : Char → Bool} (hp : Bytewise p)
    (hsrc : src.input.toList = before ++ cs) :
    Moves (takeWhile src p) (byteSize before) t (cs.takeWhile p)
      (byteSize (before ++ cs.takeWhile p)) t := by
  rw [Moves, takeWhile, bind_of_moves (moves_get _ t), bind_of_moves (moves_passWhile hp hsrc),
    bind_of_moves (moves_get _ t)]
  exact moves_piece (cs.dropWhile p) (by rw [List.takeWhile_append_dropWhile, hsrc])

end Cursor

theorem agrees_skipSpace : Agrees src (Cursor.skipSpace src) skipSpace before cs :=
  Agrees.of_moves (List.takeWhile_append_dropWhile (p := isSpace)).symm
    (fun hsrc _ => Cursor.moves_skipSpace hsrc) fun _ => rfl

theorem agrees_takeWhile {p : Char → Bool} (hp : Bytewise p) :
    Agrees src (Cursor.takeWhile src p) (takeWhile p) before cs :=
  Agrees.of_moves (List.takeWhile_append_dropWhile (p := p)).symm
    (fun hsrc _ => Cursor.moves_takeWhile hp hsrc) fun _ => rfl

/-- The cursor sees a byte where reading sees a character. -/
theorem Agrees.peek {f : Option Char → ParseM β} {g : Option Char → CursorM β}
    (h : Agrees src (g (cs.head?.map face)) (f cs.head?) before cs) :
    Agrees src (Cursor.peek src >>= g) (peek? >>= f) before cs :=
  Agrees.afterCursor (fun hsrc _ => Cursor.moves_peek hsrc) (Agrees.afterReader (fun _ => rfl) h)

/-- A character of ASCII is one byte. -/
theorem byteSize_narrow {c : Char} (hc : c.toNat < 128) : byteSize [c] = 1 := by
  obtain ⟨b, hb, -⟩ := encodeChar_narrow hc
  rw [byteSize_eq_length, encode, List.flatMap_singleton, hb]
  rfl

/-- The next character is passed over. -/
theorem agrees_advance {c : Char} (hc : c.toNat < 128) (hcs : cs = c :: rest) :
    Agrees src (Cursor.advance 1) advance before cs := by
  subst hcs
  refine Agrees.of_moves (show c :: rest = [c] ++ rest from rfl) (fun _ t => ?_)
    fun t => gives_advance c
  rw [byteSize_append, byteSize_narrow hc]
  exact Cursor.moves_advance 1 _ t

theorem map_face_head?_eq_iff {c : Char} (hc : c.toNat < 128) :
    cs.head?.map face = some c ↔ cs.head? = some c := by
  cases cs with
  | nil => simp
  | cons d cs => simp [face_eq_iff hc]

theorem isPrefixOf_singleton {c : Char} : [c].isPrefixOf cs = true ↔ cs.head? = some c := by
  cases cs with
  | nil => simp
  | cons d cs =>
    rw [List.isPrefixOf_cons_cons, List.isPrefixOf_nil_left, Bool.and_true, beq_iff_eq,
      List.head?_cons, Option.some_inj]
    exact eq_comm

/-- A byte that is passed over where it comes next. -/
theorem Agrees.eat {f : Bool → ParseM β} {g : Bool → CursorM β} {c : Char} (hc : c.toNat < 128)
    (h : ∀ found passed rest, cs = passed ++ rest → (found = true → rest.length < cs.length) →
      Agrees src (g found) (f found) (before ++ passed) rest) :
    Agrees src (Cursor.eat src c >>= g) (eat [c] >>= f) before cs := by
  have hcs : cs = cs.takeWhile isSpace ++ cs.dropWhile isSpace :=
    List.takeWhile_append_dropWhile.symm
  simp only [Cursor.eat, TypeParser.eat, bind_assoc]
  refine Agrees.step hcs (fun hsrc _ => Cursor.moves_skipSpace hsrc) (fun _ => rfl) ?_
  refine Agrees.afterCursor (fun hsrc _ => Cursor.moves_peek hsrc)
    (Agrees.afterReader (fun _ => gives_get) ?_)
  by_cases hhead : (cs.dropWhile isSpace).head? = some c
  · obtain ⟨ds, hds⟩ := List.head?_eq_some_iff.1 hhead
    rw [if_pos ((map_face_head?_eq_iff hc).2 hhead), if_pos (isPrefixOf_singleton.2 hhead), hds,
      bind_assoc, bind_assoc]
    refine Agrees.step (a := ⟨⟩) (List.singleton_append (l := ds)).symm (fun _ t => ?_)
      (fun t => gives_set ds) ?_
    · rw [byteSize_append _ [c], byteSize_narrow hc]
      exact Cursor.moves_advance 1 _ t
    · rw [pure_bind, pure_bind, List.append_assoc]
      have hall : cs = cs.takeWhile isSpace ++ ([c] ++ ds) := by
        rw [List.singleton_append, ← hds, ← hcs]
      refine h true _ ds (by rw [List.append_assoc, ← hall]) fun _ => ?_
      rw [hcs, hds, List.length_append, List.length_cons]
      omega
  · rw [if_neg fun h => hhead ((map_face_head?_eq_iff hc).1 h),
      if_neg fun h => hhead (isPrefixOf_singleton.1 h), pure_bind, pure_bind]
    exact h false _ _ hcs fun h => absurd h Bool.false_ne_true

/-- A text that is passed over where it comes next. -/
theorem Agrees.eatText {f : Bool → ParseM β} {g : Bool → CursorM β} {token : List Char}
    (htoken : token ≠ [])
    (h : ∀ found passed rest, cs = passed ++ rest → (found = true → rest.length < cs.length) →
      Agrees src (g found) (f found) (before ++ passed) rest) :
    Agrees src (Cursor.eatText src token >>= g) (TypeParser.eat token >>= f) before cs := by
  have hcs : cs = cs.takeWhile isSpace ++ cs.dropWhile isSpace :=
    List.takeWhile_append_dropWhile.symm
  simp only [Cursor.eatText, TypeParser.eat, bind_assoc]
  refine Agrees.step hcs (fun hsrc _ => Cursor.moves_skipSpace hsrc) (fun _ => rfl) ?_
  refine Agrees.afterCursor (fun hsrc _ => Cursor.moves_ahead hsrc)
    (Agrees.afterReader (fun _ => gives_get) ?_)
  by_cases hprefix : token.isPrefixOf (cs.dropWhile isSpace) = true
  · obtain ⟨ds, hds⟩ := List.isPrefixOf_iff_prefix.1 hprefix
    rw [if_pos hprefix, if_pos hprefix, ← hds, List.drop_left, bind_assoc, bind_assoc]
    refine Agrees.step (a := ⟨⟩) rfl (fun _ t => ?_) (fun t => gives_set ds) ?_
    · rw [byteSize_append _ token]
      exact Cursor.moves_advance _ _ t
    · rw [pure_bind, pure_bind, List.append_assoc]
      refine h true _ ds (by rw [List.append_assoc, hds, ← hcs]) fun _ => ?_
      have := List.length_pos_iff.2 htoken
      rw [hcs, ← hds, List.length_append, List.length_append]
      omega
  · rw [if_neg hprefix, if_neg hprefix, pure_bind, pure_bind]
    exact h false _ _ hcs fun h => absurd h Bool.false_ne_true

/-- The place behind the characters that were passed, counted from the end. -/
theorem place_eq (hsrc : src.input.toList = before ++ cs) :
    src.input.utf8ByteSize - byteSize cs = byteSize before := by
  have hsize : src.input.utf8ByteSize = byteSize src.input.toList := by
    rw [byteSize, String.ofList_toList]
  rw [hsize, hsrc, byteSize_append, Nat.add_sub_cancel]

/-- A complaint about the next character tells the byte at which it starts. -/
theorem unexpected_eq {c : Char} (hsrc : src.input.toList = before ++ c :: cs) (t : TypeTable) :
    unexpected (α := α) src (c :: cs) t =
      .ok (.error (.unexpectedChar src.input (byteSize before) c), t) := by
  rw [unexpected, bind_of_gives gives_get, List.head?_cons, ← place_eq hsrc]
  rfl

theorem agrees_unexpectedNext (hcs : cs ≠ []) :
    Agrees src (Cursor.unexpectedNext (α := α) src) (unexpected src) before cs := by
  obtain ⟨c, ds, rfl⟩ := List.exists_cons_of_ne_nil hcs
  refine Agrees.afterCursor (fun hsrc _ => Cursor.moves_peekChar hsrc) fun hsrc t => ?_
  rw [unexpected_eq hsrc]
  exact .complaint ⟨rfl, before, ds, hsrc, rfl⟩

/-- A byte that must come next leaves fewer characters. -/
theorem Agrees.expect {f : Unit → ParseM β} {g : Unit → CursorM β} {c : Char} (hc : c.toNat < 128)
    (h : ∀ passed rest, cs = passed ++ rest → rest.length < cs.length →
      Agrees src (g ⟨⟩) (f ⟨⟩) (before ++ passed) rest) :
    Agrees src (Cursor.expect src c >>= g) (expect src c >>= f) before cs := by
  rw [Cursor.expect, TypeParser.expect, bind_assoc, bind_assoc]
  refine Agrees.eat hc fun found passed rest hcs hlen => ?_
  cases found with
  | true => exact h passed rest hcs (hlen rfl)
  | false =>
    simp only [Bool.not_false, if_true, bind_assoc]
    refine Agrees.afterCursor (fun hsrc _ => Cursor.moves_peekChar hsrc) ?_
    cases rest with
    | nil => exact fun _ _ => .complaint rfl
    | cons d ds =>
      intro hsrc t
      rw [bind_of_error (unexpected_eq hsrc t)]
      exact .complaint ⟨rfl, _, ds, hsrc, rfl⟩

/-- The closing quote stands where reading by characters finds it. -/
theorem quotedAt_eq (cs : List Char) : ∀ n, (quotedBody cs = none ∧ Cursor.quotedAt n cs = none) ∨
    ∃ body passed rest, cs = passed ++ '\'' :: rest ∧ quotedBody cs = some (body, rest) ∧
      Cursor.quotedAt n cs = some (body, n + byteSize passed) := by
  have hbackslash : ('\\' : Char).utf8Size = 1 := rfl
  induction cs using quotedBody.induct with
  | case1 rest => exact fun n => .inr ⟨[], [], rest, rfl, rfl, rfl⟩
  | case2 c rest ih =>
    intro n
    rw [quotedBody, Cursor.quotedAt]
    rcases ih (n + 1 + c.utf8Size) with ⟨hbody, hat⟩ | ⟨body, passed, rest', rfl, hbody, hat⟩
    · exact .inl ⟨by rw [hbody]; rfl, by rw [hat]; rfl⟩
    · have hplace : n + byteSize ('\\' :: c :: passed) = n + 1 + c.utf8Size + byteSize passed := by
        rw [byteSize_cons, byteSize_cons, hbackslash]
        omega
      exact .inr ⟨_, '\\' :: c :: passed, rest', rfl, by rw [hbody]; rfl, by rw [hat, hplace]; rfl⟩
  | case3 => exact fun n => .inl ⟨rfl, rfl⟩
  | case4 c rest hquote hescape hend ih =>
    intro n
    rw [quotedBody.eq_4 c rest hquote hescape hend,
      Cursor.quotedAt.eq_4 n c rest hquote hescape hend]
    rcases ih (n + c.utf8Size) with ⟨hbody, hat⟩ | ⟨body, passed, rest', rfl, hbody, hat⟩
    · exact .inl ⟨by rw [hbody]; rfl, by rw [hat]; rfl⟩
    · have hplace : n + byteSize (c :: passed) = n + c.utf8Size + byteSize passed := by
        rw [byteSize_cons]
        omega
      exact .inr ⟨_, c :: passed, rest', rfl, by rw [hbody]; rfl, by rw [hat, hplace]; rfl⟩
  | case5 => exact fun n => .inl ⟨rfl, rfl⟩

theorem agrees_quotedText (hcs : cs.head? = some '\'') :
    Agrees src (Cursor.quotedText src) (quotedText src) before cs := by
  obtain ⟨ds, rfl⟩ := List.head?_eq_some_iff.1 hcs
  intro hsrc t
  have hplace : byteSize (before ++ ['\'']) = byteSize before + 1 := byteSize_append _ _
  have hsrc' : src.input.toList = (before ++ ['\'']) ++ ds := by rw [hsrc, List.append_assoc]; rfl
  have hahead := Cursor.moves_ahead (t := t) hsrc'
  rw [hplace] at hahead
  rw [Cursor.quotedText, quotedText, bind_of_moves (Cursor.moves_advance 1 _ t),
    bind_of_moves hahead, bind_of_gives gives_get, List.tail_cons]
  rcases quotedAt_eq ds 0 with ⟨hbody, hat⟩ | ⟨body, passed, rest, rfl, hbody, hat⟩
  · rw [hbody, hat]
    exact .complaint rfl
  · rw [hbody, hat]
    have hend : byteSize before + 1 + (0 + byteSize passed + 1) =
        byteSize (before ++ ('\'' :: passed ++ ['\''])) := by
      rw [byteSize_append, byteSize_append, byteSize_cons]
      have h : byteSize ['\''] = 1 ∧ ('\'' : Char).utf8Size = 1 := ⟨rfl, rfl⟩
      omega
    simp only
    rw [bind_of_moves (Cursor.moves_advance _ _ t), hend, bind_of_gives (gives_set rest)]
    exact .goes (by simp)

/-- A name is a piece between two characters. -/
theorem agrees_name : Agrees src (Cursor.name src) name before cs := by
  have hpiece : ∀ front ds : List Char, src.input.toList = before ++ (front ++ ds) → ∀ t,
      Moves (do
        let _ ← Cursor.takeWhile src isNameChar
        Cursor.piece src (byteSize before) (← get)) (byteSize (before ++ front)) t
        (front ++ ds.takeWhile isNameChar)
        (byteSize (before ++ (front ++ ds.takeWhile isNameChar))) t := by
    intro front ds hsrc t
    have hsrc' : src.input.toList = (before ++ front) ++ ds := by rw [hsrc, List.append_assoc]
    have htake := Cursor.moves_takeWhile (t := t) bytewise_isNameChar hsrc'
    rw [List.append_assoc] at htake
    rw [Moves, bind_of_moves htake, bind_of_moves (Cursor.moves_get _ t)]
    refine Cursor.moves_piece (ds.dropWhile isNameChar) ?_
    rw [List.append_assoc, List.takeWhile_append_dropWhile, hsrc]
  rw [Cursor.name, name]
  refine Agrees.afterCursor (fun _ t => Cursor.moves_get _ t) (Agrees.peek ?_)
  by_cases hhead : cs.head? = some '$'
  · obtain ⟨ds, rfl⟩ := List.head?_eq_some_iff.1 hhead
    rw [if_pos ((map_face_head?_eq_iff (by decide)).2 hhead), hhead]
    have hcs : '$' :: ds = '$' :: ds.takeWhile isNameChar ++ ds.dropWhile isNameChar := by
      rw [List.cons_append, List.takeWhile_append_dropWhile]
    refine Agrees.of_moves hcs (fun hsrc t => ?_) fun _ => rfl
    have hplace : byteSize (before ++ ['$']) = byteSize before + 1 := byteSize_append _ _
    have hmoves := hpiece ['$'] ds hsrc t
    rw [hplace] at hmoves
    exact (bind_of_moves (Cursor.moves_advance 1 _ t)).trans hmoves
  · rw [if_neg fun h => hhead ((map_face_head?_eq_iff (by decide)).1 h)]
    have hcs : cs = cs.takeWhile isNameChar ++ cs.dropWhile isNameChar :=
      List.takeWhile_append_dropWhile.symm
    refine Agrees.of_moves (a := cs.takeWhile isNameChar) hcs (fun hsrc t => ?_) fun t => ?_
    · have hmoves := hpiece [] cs hsrc t
      rw [List.append_nil] at hmoves
      exact hmoves
    · split
      · next heq => exact absurd heq hhead
      · rfl

end

end TypeParser

end UnionInference
