import Mathlib.Data.List.Basic
import UnionInference.Proofs.Name

/-!
Scanning a text up to the first divider that stands outside of brackets and quotes. A text is
neutral when a scan passes over it and ends as deep in brackets as it began; it can then be told
apart from whatever follows a divider, and a row of neutral texts with dividers between them can be
taken apart again. Written types are neutral, which is why they can be told apart.
-/

namespace UnionInference.TypeText

/-- Whether a scan is inside quotes, and there just after a backslash. -/
inductive Quoting where | outside | inside | escaped
  deriving DecidableEq

/-- Where a scan stands: how deep in brackets, and whether in quotes. -/
abbrev Place := Nat × Quoting

def isOpening (c : Char) : Bool := c == '(' || c == '<' || c == '\x7b'

def isClosing (c : Char) : Bool := c == ')' || c == '>' || c == '\x7d'

/-- Whether the character can follow a written type. -/
def isDivider (c : Char) : Bool := c == '|' || c == ',' || c == '.' || c == '=' || isClosing c

/-- Where a scan stands after one more character. -/
def step : Place → Char → Place
  | (d, .outside), c =>
    if isOpening c then (d + 1, .outside)
    else if isClosing c then (d - 1, .outside)
    else if c = '\'' then (d, .inside)
    else (d, .outside)
  | (d, .inside), c =>
    if c = '\'' then (d, .outside) else if c = '\\' then (d, .escaped) else (d, .inside)
  | (d, .escaped), _ => (d, .inside)

/-- The text up to the first character outside of brackets and quotes at which to stop, and the text
from there on. -/
def scan (stop : Char → Bool) : Place → List Char → List Char × List Char
  | _, [] => ([], [])
  | p, c :: cs =>
    if p = (0, .outside) ∧ stop c = true then ([], c :: cs)
    else
      let r := scan stop (step p c) cs
      (c :: r.1, r.2)

/-- A scan passes over the text from one place to another. -/
def Passes (stop : Char → Bool) (p q : Place) (cs : List Char) : Prop :=
  ∀ rest, scan stop p (cs ++ rest) = (cs ++ (scan stop q rest).1, (scan stop q rest).2)

/-- A scan passes over the text wherever it begins outside of quotes, and ends as deep. -/
def Neutral (stop : Char → Bool) (cs : List Char) : Prop :=
  ∀ d, Passes stop (d, .outside) (d, .outside) cs

/-- A scan passes over the text if it begins inside of brackets, and ends as deep. -/
def Inner (stop : Char → Bool) (cs : List Char) : Prop :=
  ∀ d, Passes stop (d + 1, .outside) (d + 1, .outside) cs

section

variable {stop : Char → Bool} {p q r : Place} {cs ds : List Char}

/-! ### Passing over a text -/

theorem Passes.nil : Passes stop p p [] := fun _ => rfl

theorem Passes.append (h : Passes stop p q cs) (k : Passes stop q r ds) :
    Passes stop p r (cs ++ ds) := by
  intro rest
  rw [List.append_assoc, h, k, List.append_assoc]

theorem Passes.char {c : Char} (h : ¬ (p = (0, .outside) ∧ stop c = true)) :
    Passes stop p (step p c) [c] := by
  intro rest
  rw [List.singleton_append, scan, if_neg h]
  rfl

/-- Quotes hide whatever is between them. -/
theorem passes_quoteChar (d : Nat) (c : Char) :
    Passes stop (d, .inside) (d, .inside) (quoteChar c) := by
  have hin : ∀ (q : Quoting) (e : Char), q ≠ .outside →
      Passes stop (d, q) (step (d, q) e) [e] := by
    intro q e hq
    apply Passes.char
    rintro ⟨h, -⟩
    exact hq (Prod.mk.inj h).2
  rw [quoteChar]
  split
  · exact (hin .inside '\\' (by decide)).append (hin .escaped c (by decide))
  · next h =>
    rw [not_or] at h
    have hstep : step (d, .inside) c = (d, .inside) := by simp [step, h.1, h.2]
    have := hin .inside c (by decide)
    rwa [hstep] at this

theorem passes_quoteChars (d : Nat) (s : List Char) :
    Passes stop (d, .inside) (d, .inside) (s.flatMap quoteChar) := by
  induction s with
  | nil => exact Passes.nil
  | cons c s ih => rw [List.flatMap_cons]; exact (passes_quoteChar d c).append ih

/-! ### Neutral texts -/

theorem Neutral.nil : Neutral stop [] := fun _ => Passes.nil

theorem Neutral.append (h : Neutral stop cs) (k : Neutral stop ds) : Neutral stop (cs ++ ds) :=
  fun d => (h d).append (k d)

theorem Inner.nil : Inner stop [] := fun _ => Passes.nil

theorem Inner.append (h : Inner stop cs) (k : Inner stop ds) : Inner stop (cs ++ ds) :=
  fun d => (h d).append (k d)

theorem Neutral.inner (h : Neutral stop cs) : Inner stop cs := fun d => h (d + 1)

/-- Whether the character neither opens nor closes anything. -/
def isFlat (c : Char) : Bool := !isOpening c && !isClosing c && c != '\''

theorem step_of_isFlat {c : Char} (h : isFlat c = true) (d : Nat) :
    step (d, .outside) c = (d, .outside) := by
  simp only [isFlat, Bool.and_eq_true, Bool.not_eq_true', bne_iff_ne, ne_eq] at h
  simp [step, h.1.1, h.1.2, h.2]

theorem Inner.char {c : Char} (h : isFlat c = true) : Inner stop [c] := by
  intro d
  have hpass : Passes stop (d + 1, .outside) (step (d + 1, .outside) c) [c] := Passes.char (by simp)
  rwa [step_of_isFlat h] at hpass

theorem Neutral.char {c : Char} (h : isFlat c = true) (hs : stop c = false) : Neutral stop [c] := by
  intro d
  have hpass : Passes stop (d, .outside) (step (d, .outside) c) [c] := Passes.char (by simp [hs])
  rwa [step_of_isFlat h] at hpass

theorem Neutral.of_all (h : ∀ c ∈ cs, isFlat c = true ∧ stop c = false) : Neutral stop cs := by
  induction cs with
  | nil => exact Neutral.nil
  | cons c cs ih =>
    have hc := h c (by simp)
    exact (Neutral.char hc.1 hc.2).append (ih fun d hd => h d (by simp [hd]))

theorem Neutral.quoted (hs : stop '\'' = false) (s : String) : Neutral stop (quote s).toList := by
  intro d
  have hopen : Passes stop (d, .outside) (d, .inside) ['\''] :=
    Passes.char (p := (d, .outside)) (by simp [hs])
  have hclose : Passes stop (d, .inside) (d, .outside) ['\''] :=
    Passes.char (p := (d, .inside)) (by simp)
  rw [toList_quote, ← List.singleton_append]
  exact hopen.append ((passes_quoteChars d s.toList).append hclose)

/-- What stands in brackets may hold dividers. -/
theorem Inner.bracketed {a b : Char} (h : Inner stop cs) (ha : isOpening a = true)
    (hb : isClosing b = true) (hs : stop a = false) : Neutral stop (a :: (cs ++ [b])) := by
  intro d
  have hopen : Passes stop (d, .outside) (d + 1, .outside) [a] := by
    rw [show (d + 1, Quoting.outside) = step (d, .outside) a by simp [step, ha]]
    exact Passes.char (by simp [hs])
  have hb' : isOpening b = false := by
    rw [← Bool.not_eq_true]
    intro h
    simp only [isClosing, isOpening, Bool.or_eq_true, beq_iff_eq] at hb h
    rcases hb with (rfl | rfl) | rfl <;> simp at h
  have hclose : Passes stop (d + 1, .outside) (d, .outside) [b] := by
    rw [show (d, Quoting.outside) = step (d + 1, .outside) b by simp [step, hb, hb']]
    exact Passes.char (by simp)
  rw [← List.singleton_append]
  exact hopen.append ((h d).append hclose)

/-! ### Telling texts apart -/

/-- A scan passes over a neutral text and stops where it should. -/
theorem scan_neutral {rest : List Char} (h : Neutral stop cs)
    (hr : ∀ c ∈ rest.head?, stop c = true) : scan stop (0, .outside) (cs ++ rest) = (cs, rest) := by
  rw [h 0]
  cases rest with
  | nil => simp [scan]
  | cons c rest => simp [scan, hr c (by simp)]

theorem Neutral.append_inj {as bs rest rest' : List Char} (ha : Neutral stop as)
    (hb : Neutral stop bs) (hr : ∀ c ∈ rest.head?, stop c = true)
    (hr' : ∀ c ∈ rest'.head?, stop c = true) (h : as ++ rest = bs ++ rest') :
    as = bs ∧ rest = rest' := by
  have hscan := scan_neutral ha hr
  rw [h, scan_neutral hb hr'] at hscan
  exact ⟨(Prod.mk.inj hscan).1.symm, (Prod.mk.inj hscan).2.symm⟩

/-! ### Rows of texts -/

theorem intercalate_cons (sep : Char) (cs : List Char) (parts : List (List Char)) :
    [sep].intercalate (cs :: parts) =
      cs ++ (if parts = [] then [] else sep :: [sep].intercalate parts) := by
  cases parts with
  | nil => simp [List.intercalate]
  | cons ds parts => simp [List.intercalate, List.intersperse]

theorem Inner.intercalate {sep : Char} {parts : List (List Char)} (hsep : isFlat sep = true)
    (h : ∀ cs ∈ parts, Inner stop cs) : Inner stop ([sep].intercalate parts) := by
  induction parts with
  | nil => exact Inner.nil
  | cons cs parts ih =>
    rw [intercalate_cons]
    refine (h cs (by simp)).append ?_
    split
    · exact Inner.nil
    · exact (Inner.char hsep).append (ih fun ds hd => h ds (by simp [hd]))

theorem Neutral.intercalate {sep : Char} {parts : List (List Char)} (hsep : isFlat sep = true)
    (hs : stop sep = false) (h : ∀ cs ∈ parts, Neutral stop cs) :
    Neutral stop ([sep].intercalate parts) := by
  induction parts with
  | nil => exact Neutral.nil
  | cons cs parts ih =>
    rw [intercalate_cons]
    refine (h cs (by simp)).append ?_
    split
    · exact Neutral.nil
    · exact (Neutral.char hsep hs).append (ih fun ds hd => h ds (by simp [hd]))

/-- A row of neutral texts is taken apart at its dividers. -/
theorem intercalate_inj {sep : Char} (hs : stop sep = true) :
    ∀ {as bs : List (List Char)}, (∀ a ∈ as, Neutral stop a) → (∀ b ∈ bs, Neutral stop b) →
      (as = [] ↔ bs = []) → [sep].intercalate as = [sep].intercalate bs → as = bs
  | [], bs, _, _, hnil, _ => (hnil.1 rfl).symm
  | a :: as, [], _, _, hnil, _ => absurd (hnil.2 rfl) (by simp)
  | a :: as, b :: bs, ha, hb, _, h => by
    have hhead : ∀ parts : List (List Char),
        ∀ c ∈ (if parts = [] then [] else sep :: [sep].intercalate parts).head?, stop c = true := by
      intro parts c hc
      split at hc
      · simp at hc
      · simp only [List.head?_cons, Option.mem_some_iff] at hc
        exact hc ▸ hs
    rw [intercalate_cons, intercalate_cons] at h
    obtain ⟨rfl, hrest⟩ := Neutral.append_inj (ha a (by simp)) (hb b (by simp)) (hhead as)
      (hhead bs) h
    congr 1
    -- the rows end together, or go on together after the divider
    by_cases has : as = [] <;> by_cases hbs : bs = []
    · rw [has, hbs]
    · rw [if_pos has, if_neg hbs] at hrest; simp at hrest
    · rw [if_neg has, if_pos hbs] at hrest; simp at hrest
    · rw [if_neg has, if_neg hbs] at hrest
      exact intercalate_inj hs (fun x hx => ha x (by simp [hx])) (fun x hx => hb x (by simp [hx]))
        (by simp [has, hbs]) (List.tail_eq_of_cons_eq hrest)

theorem intercalate_eq_nil {sep : Char} {parts : List (List Char)} (h : ∀ cs ∈ parts, cs ≠ []) :
    [sep].intercalate parts = [] ↔ parts = [] := by
  cases parts with
  | nil => simp [List.intercalate]
  | cons cs parts => rw [intercalate_cons]; simp [h cs (by simp)]

/-- Texts that are not empty need no word on how many there are. -/
theorem intercalate_inj_of_ne_nil {sep : Char} (hs : stop sep = true) {as bs : List (List Char)}
    (ha : ∀ a ∈ as, Neutral stop a ∧ a ≠ []) (hb : ∀ b ∈ bs, Neutral stop b ∧ b ≠ [])
    (h : [sep].intercalate as = [sep].intercalate bs) : as = bs := by
  have hnil : as = [] ↔ bs = [] := by
    rw [← intercalate_eq_nil fun a ha' => (ha a ha').2, h,
      intercalate_eq_nil fun b hb' => (hb b hb').2]
  exact intercalate_inj hs (fun a h => (ha a h).1) (fun b h => (hb b h).1) hnil h

end

end UnionInference.TypeText
