/-
A grammar of scripts, and the mask of every script that it describes.

A script is a list of tokens: code bytes, comments, string, template
and regular-expression literals, and division signs. A template holds,
between its pieces of literal text, substitutions that are lists of
tokens again, so the grammar nests to any depth. `render` writes tokens
out, `image` is what is to be seen of them in the mask, and `fit` says
which tokens may stand where: what a slash means depends on the last
significant code byte before it, and a line comment, a division sign
and a dollar sign must not run into the byte behind them.

The lexer is compared with this from the inside out. A piece of a
literal leaves the lexer inside the literal, a whole literal leaves it
in code with its closing delimiter as the last significant byte, and a
substitution brings the brace depth and the stack of substitutions back
to what they were. The last two statements hold of each other's parts,
which is the mutual induction in the middle of the file.
-/
import Mathlib.Data.List.Infix
import EarlyReturn.Proofs.Lexing

namespace EarlyReturn.Grammar

-- ======================================== tokens

/-- A byte of a literal, by itself or behind a backslash. -/
inductive Piece where
  | plain (b : UInt8)
  | escape (b : UInt8)
  deriving DecidableEq, Repr

/-- A piece of a regular expression, or a character class. -/
inductive RegexPart where
  | piece (p : Piece)
  | charClass (body : List Piece)
  deriving DecidableEq, Repr

mutual

/-- A token of a script. -/
inductive Token where
  /-- A byte of code that starts no other token. -/
  | code (b : UInt8)
  | lineComment (body : Bytes)
  | blockComment (body : Bytes)
  | quoted (quote : UInt8) (body : List Piece)
  | template (body : List TemplatePart)
  | regex (body : List RegexPart)
  | division

/-- A part of a template: literal text, or a substitution. -/
inductive TemplatePart where
  | piece (p : Piece)
  | substitution (tokens : List Token)

end

-- ======================================== rendering

def Piece.render : Piece → Bytes
  | .plain b => [b]
  | .escape b => [Byte.backslash, b]

def RegexPart.render : RegexPart → Bytes
  | .piece p => p.render
  | .charClass body =>
    Byte.openBracket :: (body.flatMap Piece.render ++ [Byte.closeBracket])

mutual

/-- The bytes of a token. The newline behind a line comment is not part
of it. -/
def Token.render : Token → Bytes
  | .code b => [b]
  | .lineComment body => Byte.slash :: Byte.slash :: body
  | .blockComment body =>
    Byte.slash :: Byte.star :: (body ++ [Byte.star, Byte.slash])
  | .quoted quote body => quote :: (body.flatMap Piece.render ++ [quote])
  | .template body => Byte.backtick :: (renderParts body ++ [Byte.backtick])
  | .regex body => Byte.slash :: (body.flatMap RegexPart.render ++ [Byte.slash])
  | .division => [Byte.slash]

def TemplatePart.render : TemplatePart → Bytes
  | .piece p => p.render
  | .substitution tokens =>
    Byte.dollar :: Byte.openBrace :: (renderAll tokens ++ [Byte.closeBrace])

def renderParts : List TemplatePart → Bytes
  | [] => []
  | part :: rest => part.render ++ renderParts rest

/-- The bytes of a list of tokens. -/
def renderAll : List Token → Bytes
  | [] => []
  | token :: rest => token.render ++ renderAll rest

end

-- ======================================== images

/-- What a blanked byte leaves: a space, or the newline that it is. -/
def blank (b : UInt8) : UInt8 :=
  if b == Byte.newline then b else Byte.space

/-- Blanked bytes. -/
def blanked (bytes : Bytes) : Bytes :=
  bytes.map blank

mutual

/-- What is seen of a token in the mask: nothing of a comment, the
delimiters of a literal and the code of its substitutions, and all of
any other code. -/
def Token.image : Token → Bytes
  | .code b => [b]
  | .lineComment body => blanked (Byte.slash :: Byte.slash :: body)
  | .blockComment body =>
    blanked (Byte.slash :: Byte.star :: (body ++ [Byte.star, Byte.slash]))
  | .quoted quote body =>
    quote :: (blanked (body.flatMap Piece.render) ++ [quote])
  | .template body => Byte.backtick :: (imageParts body ++ [Byte.backtick])
  | .regex body =>
    Byte.slash :: (blanked (body.flatMap RegexPart.render) ++ [Byte.slash])
  | .division => [Byte.slash]

def TemplatePart.image : TemplatePart → Bytes
  | .piece p => blanked p.render
  | .substitution tokens =>
    Byte.dollar :: Byte.openBrace :: (imageAll tokens ++ [Byte.closeBrace])

def imageParts : List TemplatePart → Bytes
  | [] => []
  | part :: rest => part.image ++ imageParts rest

/-- The images of a list of tokens, one behind the other. -/
def imageAll : List Token → Bytes
  | [] => []
  | token :: rest => token.image ++ imageAll rest

end

-- ======================================== placement

/-- The last significant code byte behind a token, given the one before
it. White space and comments are not significant. -/
def Token.lastByte : Token → Option UInt8 → Option UInt8
  | .code b, last => if Byte.isSpace b then last else some b
  | .lineComment _, last => last
  | .blockComment _, last => last
  | .quoted quote _, _ => some quote
  | .template _, _ => some Byte.backtick
  | .regex _, _ => some Byte.slash
  | .division, _ => some Byte.slash

/-- Whether an operand is expected behind the last significant byte, so
that a slash there starts a regular expression. -/
def operandExpected (last : Option UInt8) : Bool :=
  last.all Lexer.operandFollows.contains

/-- A plain piece is none of the given bytes. -/
def Piece.fits (excluded : Bytes) : Piece → Bool
  | .plain b => !excluded.contains b
  | .escape _ => true

def RegexPart.fits : RegexPart → Bool
  | .piece p =>
    p.fits [Byte.slash, Byte.openBracket, Byte.backslash, Byte.newline]
  | .charClass body =>
    body.all (Piece.fits [Byte.closeBracket, Byte.backslash, Byte.newline])

/-- How many braces of code are open behind the tokens, if `depth` were
before and none is closed that was not opened. -/
def bracesOpen : List Token → (depth : Nat) → Option Nat
  | [], depth => some depth
  | .code b :: rest, depth =>
    if b == Byte.openBrace then bracesOpen rest (depth + 1)
    else if b == Byte.closeBrace then
      match depth with
      | 0 => none
      | outer + 1 => bracesOpen rest outer
    else bracesOpen rest depth
  | _ :: rest, depth => bracesOpen rest depth

/-- The braces of the tokens are balanced. -/
def balanced (tokens : List Token) : Bool :=
  bracesOpen tokens 0 == some 0

mutual

/-- Whether a token may stand behind the significant byte `last` and in
front of the byte `next`. An escaped byte may be any byte. -/
def Token.fits : Token → (last next : Option UInt8) → Bool
  | .code b, _, _ =>
    !([Byte.slash, Byte.singleQuote, Byte.doubleQuote, Byte.backtick].contains
      b)
  | .lineComment body, _, next =>
    !body.contains Byte.newline && (next == none || next == some Byte.newline)
  | .blockComment body, _, _ => !decide ([Byte.star, Byte.slash] <:+: body)
  | .quoted quote body, _, _ =>
    (quote == Byte.singleQuote || quote == Byte.doubleQuote)
      && body.all (Piece.fits [quote, Byte.backslash, Byte.newline])
  | .template body, _, _ => fitParts body
  | .regex body, last, _ =>
    operandExpected last && body.all RegexPart.fits
      && (body.flatMap RegexPart.render).head?.any fun b => b != Byte.slash
      && b != Byte.star
  | .division, last, next =>
    !operandExpected last && next != some Byte.slash && next != some Byte.star

def TemplatePart.fits : TemplatePart → (next : Option UInt8) → Bool
  | .piece p, next =>
    p.fits [Byte.backtick, Byte.backslash]
      && !(p == .plain Byte.dollar && next == some Byte.openBrace)
  | .substitution tokens, _ =>
    balanced tokens
      && fitAll tokens (some Byte.openBrace) (some Byte.closeBrace)

def fitParts : List TemplatePart → Bool
  | [] => true
  | part :: rest =>
    part.fits (renderParts rest ++ [Byte.backtick]).head? && fitParts rest

/-- Whether each token fits its place: `last` is the significant byte
before the first, `after` the byte behind the last. -/
def fitAll : List Token → (last after : Option UInt8) → Bool
  | [], _, _ => true
  | token :: rest, last, after =>
    token.fits last ((renderAll rest).head?.or after)
      && fitAll rest (token.lastByte last) after

end

-- ======================================== inside a literal

theorem blanked_cons (b : UInt8) (x : Bytes) :
    blanked (b :: x) = blank b :: blanked x := rfl

theorem blanked_append (x y : Bytes) :
    blanked (x ++ y) = blanked x ++ blanked y :=
  List.map_append

/-- A lexer state that blanks each of some items and stays as it is
blanks the whole run of them. -/
theorem mask_run {α : Type} {s : Lexer} {render : α → Bytes} {items : List α}
    (h : ∀ item ∈ items, ∀ back,
      s.mask (render item ++ back) = blanked (render item) ++ s.mask back)
    (back : Bytes) :
    s.mask (items.flatMap render ++ back)
      = blanked (items.flatMap render) ++ s.mask back := by
  induction items with
  | nil => rfl
  | cons item rest ih =>
      rw [List.flatMap_cons, List.append_assoc, h item (List.mem_cons_self ..),
        ih fun other hother => h other (List.mem_cons_of_mem _ hother),
        blanked_append, List.append_assoc]

section

variable {d : Nat} {subs : List Nat} {l : Option UInt8}

/-- A piece of a string is blank and leaves the lexer in the string. -/
theorem mask_quoted_piece {quote : UInt8} {p : Piece}
    (hp : p.fits [quote, Byte.backslash, Byte.newline] = true) (back : Bytes) :
    (Lexer.mk (.quoted quote) d subs l).mask (p.render ++ back)
      = blanked p.render ++ (Lexer.mk (.quoted quote) d subs l).mask back := by
  cases p with
  | plain b =>
      simp only [Piece.fits, List.contains_cons, List.contains_nil,
        Bool.or_false, Bool.not_or, Bool.and_eq_true, Bool.not_eq_true',
        beq_eq_false_iff_ne] at hp
      obtain ⟨hq, hb, hn⟩ := hp
      simp [Piece.render, blanked, blank, Lexer.mask, Lexer.image, Lexer.shows,
        Lexer.advance, hq, hb, hn]
  | escape b =>
      simp [Piece.render, blanked, blank, Lexer.mask, Lexer.image, Lexer.shows,
        Lexer.advance]

/-- A piece of a character class is blank and leaves the lexer in the
class. -/
theorem mask_class_piece {p : Piece}
    (hp : p.fits [Byte.closeBracket, Byte.backslash, Byte.newline] = true)
    (back : Bytes) :
    (Lexer.mk (.regex true) d subs l).mask (p.render ++ back)
      = blanked p.render ++ (Lexer.mk (.regex true) d subs l).mask back := by
  cases p with
  | plain b =>
      simp only [Piece.fits, List.contains_cons, List.contains_nil,
        Bool.or_false, Bool.not_or, Bool.and_eq_true, Bool.not_eq_true',
        beq_eq_false_iff_ne] at hp
      obtain ⟨hc, hb, hn⟩ := hp
      simp [Piece.render, blanked, blank, Lexer.mask, Lexer.image, Lexer.shows,
        Lexer.advance, hc, hb, hn]
  | escape b =>
      simp [Piece.render, blanked, blank, Lexer.mask, Lexer.image, Lexer.shows,
        Lexer.advance]

/-- A part of a regular expression is blank, a whole class included. -/
theorem mask_regexPart {part : RegexPart} (hp : part.fits = true)
    (back : Bytes) :
    (Lexer.mk (.regex false) d subs l).mask (part.render ++ back)
      = blanked part.render
        ++ (Lexer.mk (.regex false) d subs l).mask back := by
  match part with
  | .piece (.plain b) =>
      simp only [RegexPart.fits, Piece.fits, List.contains_cons,
        List.contains_nil, Bool.or_false, Bool.not_or, Bool.and_eq_true,
        Bool.not_eq_true', beq_eq_false_iff_ne] at hp
      obtain ⟨hs, ho, hb, hn⟩ := hp
      simp [RegexPart.render, Piece.render, blanked, blank, Lexer.mask,
        Lexer.image, Lexer.shows, Lexer.advance, hs, ho, hb, hn]
  | .piece (.escape b) =>
      show Byte.space
        :: (Lexer.mk (.regexEscape false) d subs l).mask (b :: back) = _
      simp only [Lexer.mask, Lexer.image, Lexer.shows, Lexer.advance,
        Bool.or_false]
      rfl
  | .charClass body =>
      rw [RegexPart.fits, List.all_eq_true] at hp
      have hrun := mask_run (s := Lexer.mk (.regex true) d subs l)
        (fun p hmem back => mask_class_piece (hp p hmem) back)
          (Byte.closeBracket :: back)
      rw [RegexPart.render, List.cons_append, List.append_assoc,
        List.singleton_append]
      show Byte.space :: (Lexer.mk (.regex true) d subs l).mask _ = _
      rw [hrun, blanked_cons, blanked_append, List.cons_append,
        List.append_assoc]
      rfl

/-- A line comment is blank up to the newline, which is code again. -/
theorem mask_lineComment {body : Bytes} (hbody : Byte.newline ∉ body)
    {back : Bytes}
    (hback : back.head? = none ∨ back.head? = some Byte.newline) :
    (Lexer.mk .lineComment d subs l).mask (body ++ back)
      = blanked body ++ (Lexer.mk .code d subs l).mask back := by
  induction body with
  | nil =>
      cases back with
      | nil => rfl
      | cons b rest =>
          have hb : b = Byte.newline := by simpa using hback
          subst hb
          rfl
  | cons b rest ih =>
      rw [List.mem_cons, not_or] at hbody
      have hb : b ≠ Byte.newline := fun h => hbody.1 h.symm
      have hrest := ih hbody.2
      simp [blanked, blank, Lexer.mask, Lexer.image, Lexer.shows, Lexer.advance,
        hb] at hrest ⊢
      exact hrest

/-- A block comment is blank up to its end, which is the first there is. -/
theorem mask_blockComment {body : Bytes}
    (hbody : ¬ [Byte.star, Byte.slash] <:+: body) (back : Bytes) :
    (Lexer.mk .blockComment d subs l).mask
      (body ++ Byte.star :: Byte.slash :: back)
      = blanked (body ++ [Byte.star, Byte.slash])
        ++ (Lexer.mk .code d subs l).mask back := by
  induction body with
  | nil => rfl
  | cons b rest ih =>
      rw [List.infix_cons_iff, not_or] at hbody
      -- A star here is not followed by a slash, neither in the body nor where
      -- the body meets its end.
      have hopen : ¬ (b = Byte.star ∧
          (rest ++ Byte.star :: Byte.slash :: back).head?
            = some Byte.slash) := by
        rintro ⟨rfl, hnext⟩
        cases rest with
        | nil => exact absurd (Option.some.inj hnext) (by decide)
        | cons c more =>
            have hc : c = Byte.slash := by simpa using hnext
            subst hc
            exact hbody.1 ⟨more, rfl⟩
      have hrest := ih hbody.2
      rw [List.cons_append, Lexer.mask]
      have hstay : (Lexer.mk .blockComment d subs l).advance b
          (rest ++ Byte.star :: Byte.slash :: back).head?
            = Lexer.mk .blockComment d subs l := by
        simp only [Lexer.advance, Bool.and_eq_true, beq_iff_eq, if_neg hopen]
      rw [hstay, hrest]
      simp [blanked, blank, Lexer.image, Lexer.shows]

end

-- ======================================== whole tokens

/-- A regular expression is read where an operand is expected. -/
theorem regexAllowed_eq (d : Nat) (subs : List Nat) (l : Option UInt8) :
    (Lexer.mk .code d subs l).regexAllowed = operandExpected l := by
  cases l with
  | none => rfl
  | some b => rfl

/-- `opened` braces of code have been opened since the innermost
substitution began, if one is open. -/
def Inside (subs : List Nat) (depth opened : Nat) : Prop :=
  ∀ outer ∈ subs.head?, depth = outer + 1 + opened

/-- A code byte other than a brace leaves mode and depth alone. -/
theorem mask_code_byte {b : UInt8} {next : Option UInt8} {last : Option UInt8}
    (hfit : (Token.code b).fits last next = true) (ho : b ≠ Byte.openBrace)
    (hc : b ≠ Byte.closeBrace) (d : Nat) (subs : List Nat) (back : Bytes) :
    (Lexer.mk .code d subs last).mask (b :: back)
      = b :: (Lexer.mk .code d subs ((Token.code b).lastByte last)).mask
        back := by
  simp only [Token.fits, List.contains_cons, List.contains_nil, Bool.or_false,
    Bool.not_or, Bool.and_eq_true, Bool.not_eq_true', beq_eq_false_iff_ne]
      at hfit
  obtain ⟨hs, hq, hdq, ht⟩ := hfit
  have hcomment : Lexer.opensComment b back.head? = false := by
    simp [Lexer.opensComment, hs]
  have hread : (Lexer.mk .code d subs last).readCode b
      = Lexer.mk .code d subs ((Token.code b).lastByte last) := by
    rw [Lexer.readCode_of_plain hs hq hdq ht ho hc]
    by_cases hspace : Byte.isSpace b = true
    · simp [Lexer.note, Token.lastByte, hspace]
    · simp [Lexer.note, Token.lastByte, hspace]
  simp [Lexer.mask, Lexer.image, Lexer.shows, Lexer.advance, hcomment, hread]


theorem mask_openBrace (d : Nat) (subs : List Nat) (last : Option UInt8)
    (back : Bytes) :
    (Lexer.mk .code d subs last).mask (Byte.openBrace :: back)
      = Byte.openBrace
        :: (Lexer.mk .code (d + 1) subs (some Byte.openBrace)).mask back := rfl

/-- A closing brace that closes no substitution only lowers the depth. -/
theorem mask_closeBrace {d : Nat} {subs : List Nat} (last : Option UInt8)
    (back : Bytes) (h : ∀ outer ∈ subs.head?, outer ≠ d - 1) :
    (Lexer.mk .code d subs last).mask (Byte.closeBrace :: back)
      = Byte.closeBrace
        :: (Lexer.mk .code (d - 1) subs (some Byte.closeBrace)).mask back := by
  cases subs with
  | nil => rfl
  | cons outer more =>
      have hne : outer ≠ d - 1 := h outer rfl
      have hread :
          (Lexer.mk .code d (outer :: more) last).readCode Byte.closeBrace
          = Lexer.mk .code (d - 1) (outer :: more) (some Byte.closeBrace) := by
        show (Lexer.closeBrace _).note Byte.closeBrace = _
        simp only [Lexer.closeBrace, if_neg hne]
        rfl
      show Byte.closeBrace
        :: Lexer.mask ((Lexer.mk .code d (outer :: more) last).readCode
        Byte.closeBrace) back = _
      rw [hread]

/-- A whole string literal. -/
theorem mask_quoted {quote : UInt8}
    (hquote : quote = Byte.singleQuote ∨ quote = Byte.doubleQuote)
    {body : List Piece}
    (hbody : body.all (Piece.fits [quote, Byte.backslash, Byte.newline]) = true)
    (d : Nat) (subs : List Nat) (last : Option UInt8) (back : Bytes) :
    (Lexer.mk .code d subs last).mask ((Token.quoted quote body).render ++ back)
      = (Token.quoted quote body).image
        ++ (Lexer.mk .code d subs (some quote)).mask back := by
  have hopens : ∀ rest, (Lexer.mk .code d subs last).mask (quote :: rest)
      = quote :: (Lexer.mk (.quoted quote) d subs (some quote)).mask rest := by
    intro rest
    rcases hquote with rfl | rfl <;> rfl
  have hcloses :
      (Lexer.mk (.quoted quote) d subs (some quote)).mask (quote :: back)
      = quote :: (Lexer.mk .code d subs (some quote)).mask back := by
    rcases hquote with rfl | rfl <;> rfl
  rw [List.all_eq_true] at hbody
  have hrun := mask_run (s := Lexer.mk (.quoted quote) d subs (some quote))
    (fun p hmem back => mask_quoted_piece (hbody p hmem) back) (quote :: back)
  rw [Token.render, Token.image, List.cons_append, List.append_assoc,
    List.singleton_append, hopens, hrun, hcloses, List.cons_append,
    List.append_assoc, List.singleton_append]

/-- A whole regular expression, where an operand is expected. -/
theorem mask_regex {last : Option UInt8} (hlast : operandExpected last = true)
    {body : List RegexPart} (hbody : body.all RegexPart.fits = true)
    (hstart : (body.flatMap RegexPart.render).head?.any
      (fun b => b != Byte.slash && b != Byte.star) = true)
    (d : Nat) (subs : List Nat) (back : Bytes) :
    (Lexer.mk .code d subs last).mask ((Token.regex body).render ++ back)
      = (Token.regex body).image
        ++ (Lexer.mk .code d subs (some Byte.slash)).mask back := by
  -- The first byte of the body decides between a regular expression and a
  -- comment.
  have hopens : ∀ rest,
      rest.head?.any (fun b => b != Byte.slash && b != Byte.star) = true →
      (Lexer.mk .code d subs last).mask (Byte.slash :: rest)
        = Byte.slash
          :: (Lexer.mk (.regex false) d subs (some Byte.slash)).mask rest := by
    intro rest hrest
    have hcomment : Lexer.opensComment Byte.slash rest.head? = false := by
      cases hhead : rest.head? with
      | none => rfl
      | some b =>
          rw [hhead] at hrest
          simp only [Option.any_some, Bool.and_eq_true, bne_iff_ne] at hrest
          simp [Lexer.opensComment, hrest.1, hrest.2]
    have hread : (Lexer.mk .code d subs last).readCode Byte.slash
        = Lexer.mk (.regex false) d subs (some Byte.slash) := by
      show (if (Lexer.mk .code d subs last).regexAllowed = true then _
        else _ : Lexer).note Byte.slash = _
      rw [regexAllowed_eq, if_pos hlast]
      rfl
    simp [Lexer.mask, Lexer.image, Lexer.shows, Lexer.advance, hcomment, hread]
  rw [List.all_eq_true] at hbody
  have hrun := mask_run (s := Lexer.mk (.regex false) d subs (some Byte.slash))
    (fun part hmem back => mask_regexPart (hbody part hmem) back)
      (Byte.slash :: back)
  have hhead : (body.flatMap RegexPart.render ++ Byte.slash :: back).head?
      = (body.flatMap RegexPart.render).head? := by
    cases hb : body.flatMap RegexPart.render with
    | nil => rw [hb] at hstart; cases hstart
    | cons b rest => rfl
  rw [Token.render, Token.image, List.cons_append, List.append_assoc,
    List.singleton_append, hopens _ (by rw [hhead]; exact hstart), hrun,
    List.cons_append, List.append_assoc, List.singleton_append]
  rfl

/-- A division sign, where no operand is expected. -/
theorem mask_division {last : Option UInt8}
    (hlast : operandExpected last = false) {back : Bytes}
    (hslash : back.head? ≠ some Byte.slash)
    (hstar : back.head? ≠ some Byte.star) (d : Nat) (subs : List Nat) :
    (Lexer.mk .code d subs last).mask (Byte.slash :: back)
      = Byte.slash :: (Lexer.mk .code d subs (some Byte.slash)).mask back := by
  have hcomment : Lexer.opensComment Byte.slash back.head? = false := by
    simp [Lexer.opensComment, hslash, hstar]
  have hread : (Lexer.mk .code d subs last).readCode Byte.slash
      = Lexer.mk .code d subs (some Byte.slash) := by
    show (if (Lexer.mk .code d subs last).regexAllowed = true then _
      else _ : Lexer).note Byte.slash = _
    rw [regexAllowed_eq, if_neg (by rw [hlast]; exact Bool.false_ne_true)]
    rfl
  simp [Lexer.mask, Lexer.image, Lexer.shows, Lexer.advance, hcomment, hread]

/-- A piece of template text, in front of a byte that does not make a
substitution of it. -/
theorem mask_template_piece {p : Piece} {back : Bytes}
    (hp : (TemplatePart.piece p).fits back.head? = true)
    (d : Nat) (subs : List Nat) (last : Option UInt8) :
    (Lexer.mk .template d subs last).mask (p.render ++ back)
      = blanked p.render ++ (Lexer.mk .template d subs last).mask back := by
  cases p with
  | plain b =>
      simp only [TemplatePart.fits, Piece.fits, List.contains_cons,
        List.contains_nil, Bool.or_false, Bool.not_or, Bool.and_eq_true,
        Bool.not_eq_true', beq_eq_false_iff_ne, Bool.and_eq_false_iff] at hp
      obtain ⟨⟨ht, hb⟩, hd⟩ := hp
      have hsub : ¬ (b = Byte.dollar ∧ back.head? = some Byte.openBrace) := by
        rintro ⟨rfl, hnext⟩
        rcases hd with h | h
        · exact h rfl
        · exact h hnext
      simp [Piece.render, blanked, blank, Lexer.mask, Lexer.image, Lexer.shows,
        Lexer.advance, ht, hb, hsub]
  | escape b =>
      show Byte.space :: (Lexer.mk .templateEscape d subs last).mask (b :: back)
        = _
      simp only [Lexer.mask, Lexer.image, Lexer.shows, Lexer.advance,
        Bool.or_false]
      rfl

-- ======================================== tokens in a row

/-- The brace that ends a substitution leads back into the template. -/
theorem mask_endSubstitution (d : Nat) (subs : List Nat) (last : Option UInt8)
    (back : Bytes) :
    (Lexer.mk .code (d + 1) (d :: subs) last).mask (Byte.closeBrace :: back)
      = Byte.closeBrace
        :: (Lexer.mk .template d subs (some Byte.closeBrace)).mask back := by
  have hread :
      (Lexer.mk .code (d + 1) (d :: subs) last).readCode Byte.closeBrace
      = Lexer.mk .template d subs (some Byte.closeBrace) := by
    show (Lexer.closeBrace _).note Byte.closeBrace = _
    simp only [Lexer.closeBrace, Nat.add_sub_cancel, if_true]
    rfl
  show Byte.closeBrace :: Lexer.mask (Lexer.readCode _ Byte.closeBrace) back = _
  rw [hread]

/-- Braces in literals and comments do not count. -/
theorem bracesOpen_cons_of_ne_code {token : Token} (h : ∀ b, token ≠ .code b)
    (rest : List Token) (opened : Nat) :
    bracesOpen (token :: rest) opened = bracesOpen rest opened := by
  cases token with
  | code b => exact absurd rfl (h b)
  | _ => rfl

/-- A code byte keeps count of the open braces. In a substitution it may
not be the brace that closes it. -/
theorem mask_code_token {b : UInt8} {rest : List Token}
    {last next : Option UInt8} (hfit : (Token.code b).fits last next = true)
    {d : Nat} {subs : List Nat} {opened : Nat} (hinside : Inside subs d opened)
    (hbraces : subs = []
      ∨ ∃ left, bracesOpen (.code b :: rest) opened = some left)
    (back : Bytes) :
    ∃ depth opened',
      (Lexer.mk .code d subs last).mask (b :: back)
        = b :: (Lexer.mk .code depth subs ((Token.code b).lastByte last)).mask
          back
      ∧ Inside subs depth opened'
      ∧ ∀ left, bracesOpen (.code b :: rest) opened = some left →
          bracesOpen rest opened' = some left := by
  by_cases ho : b = Byte.openBrace
  · subst ho
    refine ⟨d + 1, opened + 1, mask_openBrace d subs last back,
      fun outer h => ?_, fun left h => h⟩
    rw [hinside outer h]
    rfl
  by_cases hc : b = Byte.closeBrace
  · subst hc
    cases opened with
    | zero =>
        -- only outside of all substitutions may a brace be closed that was
        -- not opened
        have hsubs : subs = [] :=
          hbraces.resolve_right fun ⟨left, h⟩ => by cases h
        subst hsubs
        exact ⟨d - 1, 0, rfl, fun outer h => by (cases h),
          fun left h => by cases h⟩
    | succ opened =>
        refine ⟨d - 1, opened, mask_closeBrace last back fun outer h => ?_,
          fun outer h => ?_, fun left h => h⟩
        · have := hinside outer h
          omega
        · have := hinside outer h
          omega
  · refine ⟨d, opened, mask_code_byte hfit ho hc d subs back, hinside,
      fun left h => ?_⟩
    simpa [bracesOpen, ho, hc] using h

mutual

/-- A token that is not a code byte leaves the lexer in code, at the
depth where it was. -/
theorem mask_token (token : Token) {last : Option UInt8} {back : Bytes}
    (hcode : ∀ b, token ≠ .code b) (hfit : token.fits last back.head? = true)
    (d : Nat) (subs : List Nat) :
    (Lexer.mk .code d subs last).mask (token.render ++ back)
      = token.image
        ++ (Lexer.mk .code d subs (token.lastByte last)).mask back := by
  match token with
  | .code b => exact absurd rfl (hcode b)
  | .lineComment body =>
      simp only [Token.fits, Bool.and_eq_true, Bool.not_eq_true',
        Bool.or_eq_true, beq_iff_eq] at hfit
      have hbody : Byte.newline ∉ body := by
        simpa using hfit.1
      rw [Token.render, Token.image, blanked_cons, blanked_cons]
      show Byte.space :: Byte.space
        :: (Lexer.mk .lineComment d subs last).mask (body ++ back) = _
      rw [mask_lineComment hbody hfit.2]
      rfl
  | .blockComment body =>
      simp only [Token.fits, Bool.not_eq_true', decide_eq_false_iff_not] at hfit
      rw [Token.render, Token.image, blanked_cons, blanked_cons]
      simp only [List.cons_append, List.append_assoc, List.nil_append]
      show Byte.space :: Byte.space :: (Lexer.mk .blockComment d subs last).mask
        (body ++ Byte.star :: Byte.slash :: back) = _
      rw [mask_blockComment hfit]
      rfl
  | .quoted quote body =>
      simp only [Token.fits, Bool.and_eq_true, Bool.or_eq_true, beq_iff_eq]
        at hfit
      exact mask_quoted hfit.1 hfit.2 d subs last back
  | .template body =>
      rw [Token.fits] at hfit
      obtain ⟨inner, hparts⟩ :=
        mask_parts body hfit d subs (some Byte.backtick) back
      rw [Token.render, Token.image, List.cons_append, List.append_assoc,
        List.singleton_append]
      show Byte.backtick
        :: (Lexer.mk .template d subs (some Byte.backtick)).mask _ = _
      rw [hparts, List.cons_append, List.append_assoc]
      rfl
  | .regex body =>
      simp only [Token.fits, Bool.and_eq_true] at hfit
      exact mask_regex hfit.1.1 hfit.1.2 (by simpa using hfit.2) d subs back
  | .division =>
      simp only [Token.fits, Bool.and_eq_true, Bool.not_eq_true', bne_iff_ne]
        at hfit
      exact mask_division hfit.1.1 hfit.1.2 hfit.2 d subs

/-- The parts of a template leave the lexer in the template, at the
depth and with the stack it had. -/
theorem mask_parts (parts : List TemplatePart) (hfit : fitParts parts = true)
    (d : Nat) (subs : List Nat) (last : Option UInt8) (back : Bytes) :
    ∃ inner, (Lexer.mk .template d subs last).mask
      (renderParts parts ++ Byte.backtick :: back)
      = imageParts parts
        ++ (Lexer.mk .template d subs inner).mask (Byte.backtick :: back) := by
  match parts with
  | [] => exact ⟨last, rfl⟩
  | .piece p :: rest =>
      rw [fitParts, Bool.and_eq_true] at hfit
      obtain ⟨inner, hrest⟩ := mask_parts rest hfit.2 d subs last back
      refine ⟨inner, ?_⟩
      have hhead : (renderParts rest ++ Byte.backtick :: back).head?
          = (renderParts rest ++ [Byte.backtick]).head? := by
        rw [List.head?_append, List.head?_append]
        rfl
      rw [renderParts, TemplatePart.render, List.append_assoc,
        mask_template_piece (by rw [hhead]; exact hfit.1), hrest, imageParts,
        TemplatePart.image, List.append_assoc]
  | .substitution tokens :: rest =>
      rw [fitParts, TemplatePart.fits, Bool.and_eq_true, Bool.and_eq_true,
        balanced, beq_iff_eq] at hfit
      obtain ⟨⟨hbalanced, htokens⟩, hparts⟩ := hfit
      have hinside : Inside (d :: subs) (d + 1) 0 := by
        intro outer h
        cases h
        rfl
      obtain ⟨depth, inner, hmask, hdepth⟩ := mask_tokens tokens
        (Byte.closeBrace :: (renderParts rest ++ Byte.backtick :: back)) htokens
          hinside
        (Or.inr ⟨0, hbalanced⟩)
      have hd : depth = d + 1 := hdepth 0 hbalanced d rfl
      subst hd
      obtain ⟨inner', hrest⟩ :=
        mask_parts rest hparts d subs (some Byte.closeBrace) back
      refine ⟨inner', ?_⟩
      rw [renderParts, TemplatePart.render, imageParts, TemplatePart.image]
      simp only [List.cons_append, List.append_assoc, List.nil_append]
      show Byte.dollar :: Byte.openBrace ::
        (Lexer.mk .code (d + 1) (d :: subs) (some Byte.openBrace)).mask _ = _
      rw [hmask, ← hrest, mask_endSubstitution]

/-- A run of tokens leaves the lexer in code with the stack it had, and
keeps count of the braces that are open since the innermost substitution
began. -/
theorem mask_tokens (tokens : List Token) {last : Option UInt8} (back : Bytes)
    (hfit : fitAll tokens last back.head? = true) {d : Nat} {subs : List Nat}
    {opened : Nat} (hinside : Inside subs d opened)
    (hbraces : subs = [] ∨ ∃ left, bracesOpen tokens opened = some left) :
    ∃ depth inner, (Lexer.mk .code d subs last).mask (renderAll tokens ++ back)
        = imageAll tokens ++ (Lexer.mk .code depth subs inner).mask back
      ∧ ∀ left, bracesOpen tokens opened = some left →
        Inside subs depth left := by
  match tokens with
  | [] =>
      refine ⟨d, last, rfl, fun left h => ?_⟩
      cases h
      exact hinside
  | token :: rest =>
      rw [fitAll, Bool.and_eq_true, ← List.head?_append] at hfit
      obtain ⟨depth, opened', hmask, hinside', hcount⟩ : ∃ depth opened',
          (Lexer.mk .code d subs last).mask
            (token.render ++ (renderAll rest ++ back))
            = token.image
              ++ (Lexer.mk .code depth subs (token.lastByte last)).mask
              (renderAll rest ++ back)
          ∧ Inside subs depth opened'
          ∧ ∀ left, bracesOpen (token :: rest) opened = some left →
              bracesOpen rest opened' = some left := by
        -- Only a code byte can be a brace and change the depth.
        by_cases hcode : ∃ b, token = .code b
        · obtain ⟨b, rfl⟩ := hcode
          exact mask_code_token hfit.1 hinside hbraces _
        · have hne : ∀ b, token ≠ .code b := fun b h => hcode ⟨b, h⟩
          refine ⟨d, opened, mask_token token hne hfit.1 d subs, hinside,
            fun left h => ?_⟩
          rw [← h, bracesOpen_cons_of_ne_code hne]
      obtain ⟨depth', inner, hrest, hleft⟩ :=
        mask_tokens rest back hfit.2 hinside'
        (hbraces.imp id fun ⟨left, h⟩ => ⟨left, hcount left h⟩)
      refine ⟨depth', inner, ?_, fun left h => hleft left (hcount left h)⟩
      rw [renderAll, imageAll, List.append_assoc, hmask, hrest,
        List.append_assoc]

end

/-- The mask of a script that the grammar describes is what is to be
seen of its tokens, one behind the other: comments blanked whole,
literals up to their delimiters and the code of their substitutions,
all other code as it is. -/
theorem mask_eq_imageAll (text : Text) (tokens : List Token)
    (hrender : text.bytes = renderAll tokens)
    (hfit : fitAll tokens none none = true) :
    text.mask = imageAll tokens := by
  have houtside : Inside [] 0 0 := by
    intro outer h
    cases h
  obtain ⟨depth, inner, hmask, -⟩ :=
    mask_tokens tokens [] hfit houtside (Or.inl rfl)
  rw [Text.mask, hrender]
  rw [List.append_nil] at hmask
  show (Lexer.mk .code 0 [] none).mask _ = _
  rw [hmask, Lexer.mask, List.append_nil]

/-- A template in a substitution of a template, between comments, a
string, a regular expression and a division. -/
theorem mask_eq_imageAll_nested :
    let tokens : List Token :=
      [.code 0x61, .division, .code 0x62, .lineComment [Byte.singleQuote],
        .code Byte.newline,
       .template [.piece (.plain Byte.dollar), .substitution
         [.code Byte.openBrace,
           .quoted Byte.singleQuote [.escape Byte.singleQuote],
          .code Byte.closeBrace, .blockComment [Byte.closeBrace], .regex
            [.charClass [.plain Byte.slash], .piece (.plain Byte.backtick)],
          .template [.substitution [.code 0x63]]]]]
    let text : Text :=
      "a/b//'\n`$$\x7b\x7b'\\''\x7d/*\x7d*//[/]`/`$\x7bc\x7d`\x7d`".toList
    text.bytes = renderAll tokens ∧ fitAll tokens none none = true
      ∧ text.mask = imageAll tokens := by
  intro tokens text
  have hrender : text.bytes = renderAll tokens := by decide +kernel
  have hfit : fitAll tokens none none = true := by decide +kernel
  exact ⟨hrender, hfit, mask_eq_imageAll text tokens hrender hfit⟩

end EarlyReturn.Grammar
