import ExprCompiler.Text.Blank
import ExprCompiler.Token.Basic

/-!
# The lexer

Tokens are cut off the front of a text one at a time. The text is read
character by character with one character of lookahead: nothing is read
before the first token is asked for, and after that one character more than
has been consumed.
-/

namespace ExprCompiler

inductive Ending
  | closed
  | interrupted
  | undecodable
  /-- The system fails to read on, for this reason. -/
  | failed (reason : String)
  /-- More text may come; it is not there yet. -/
  | pending
  deriving DecidableEq, Repr, Inhabited

inductive ReadFailure
  | interrupted
  | undecodable
  | failed (reason : String)
  | pending
  deriving DecidableEq, Repr, Inhabited

def Ending.failure? : Ending → Option ReadFailure
  | closed => none
  | interrupted => some .interrupted
  | undecodable => some .undecodable
  | failed reason => some (.failed reason)
  | pending => some .pending

structure Source where
  chars : List Char
  ending : Ending
  deriving Repr, Inhabited

def Source.ofString (s : String) : Source := ⟨s.toList, .closed⟩

structure Cursor where
  offset : Nat
  line : Nat
  column : Nat
  deriving DecidableEq, Repr, Inhabited

def Cursor.start : Cursor := ⟨0, 1, 1⟩

def Cursor.past (p : Cursor) (c : Char) : Cursor :=
  if c = '\n' then ⟨p.offset + 1, p.line + 1, 1⟩ else ⟨p.offset + 1, p.line, p.column + 1⟩

/-! ### Lexemes at the front of a text -/

def isLetter (c : Char) : Bool := ('a' ≤ c && c ≤ 'z') || ('A' ≤ c && c ≤ 'Z')

def isWordChar (c : Char) : Bool := isLetter c || Decimal.isDigit c

/-- The blanks and comments at the front of a text; the flag says that a comment is open. -/
def blankPrefix : Bool → List Char → List Char
  | _, [] => []
  | true, c :: cs => c :: blankPrefix (c != '\n' && c != '\r') cs
  | false, c :: cs =>
    if Text.isBlank c then c :: blankPrefix false cs
    else if c = '#' then c :: blankPrefix true cs
    else []

structure Numeral where
  whole : List Char
  point : Bool
  fraction : List Char
  deriving Repr

namespace Numeral

def ofFront (cs : List Char) : Numeral :=
  let whole := cs.takeWhile Decimal.isDigit
  match cs.dropWhile Decimal.isDigit with
  | '.' :: rest => ⟨whole, true, rest.takeWhile Decimal.isDigit⟩
  | _ => ⟨whole, false, []⟩

def chars (n : Numeral) : List Char :=
  n.whole ++ (if n.point then ['.'] else []) ++ n.fraction

def value (n : Numeral) : Binary64 := (Decimal.ofParts n.whole n.fraction).toBinary64

end Numeral

structure Lexeme where
  kind : TokenKind
  chars : List Char
  value : TokenValue

namespace Lexeme

def ofWord (cs : List Char) : Lexeme :=
  match keywords.lookup (String.ofList cs) with
  | some k => ⟨k, cs, .absent⟩
  | none => ⟨.identifier, cs, .name (String.ofList cs)⟩

def ofNumeral (n : Numeral) : Lexeme :=
  if n.chars = ['.'] then ⟨.char, ['.'], .absent⟩ else ⟨.number, n.chars, .number n.value⟩

/-- The longest lexeme at the front of a text that starts with `c`. A point without digits is
a character like any other. -/
def ofFront (c : Char) (cs : List Char) : Lexeme :=
  if isLetter c then ofWord (c :: cs.takeWhile isWordChar)
  else if Decimal.isDigit c || c == '.' then ofNumeral (.ofFront (c :: cs))
  else ⟨.char, [c], .absent⟩

def token (x : Lexeme) (l : Location) : Token := ⟨x.kind, String.ofList x.chars, x.value, l⟩

end Lexeme

/-! ### Reading -/

structure Lexer where
  file : String
  ahead : List Char
  ending : Ending
  cursor : Cursor
  /-- How many times a character, or the end, has been asked for. -/
  reads : Nat
  deriving Repr, Inhabited

namespace Lexer

def ofSource (s : Source) (file : String) : Lexer := ⟨file, s.chars, s.ending, .start, 0⟩

def ofString (s file : String) : Lexer := ofSource (.ofString s) file

def begin (l : Lexer) : Lexer := if l.reads = 0 then { l with reads := 1 } else l

def atEnd (l : Lexer) : Bool := l.reads != 0 && l.ahead.isEmpty

/-- Consumes one character and reads the next. At the end nothing is read again. -/
def advance (l : Lexer) : Lexer :=
  match l.ahead with
  | [] => l
  | c :: cs => { l with ahead := cs, cursor := l.cursor.past c, reads := l.reads + 1 }

def advanceBy : Nat → Lexer → Lexer
  | 0, l => l
  | n + 1, l => advanceBy n l.advance

def location (l : Lexer) : Location :=
  ⟨l.file, l.cursor.line, l.cursor.column, l.cursor.offset⟩

def skipBlanks (l : Lexer) : Lexer := l.advanceBy (blankPrefix false l.ahead).length

def cut (l : Lexer) : Token × Lexer :=
  match l.ahead with
  | [] => (⟨.endOfInput, "", .absent, l.location⟩, l)
  | c :: cs =>
    let x := Lexeme.ofFront c cs
    (x.token l.location, l.advanceBy x.chars.length)

def scan (l : Lexer) : Token × Lexer := l.begin.skipBlanks.cut

/-- The next token. A token at the end of the text has made the lexer read on, so that what
follows the text decides whether there is a token at all. -/
def next (l : Lexer) : Except ReadFailure (Token × Lexer) :=
  let r := l.scan
  match r.2.ahead, l.ending.failure? with
  | [], some f => .error f
  | _, _ => .ok r

def extend (l : Lexer) (s : Source) : Lexer :=
  { l with ahead := l.ahead ++ s.chars, ending := s.ending }

@[simp] theorem ahead_begin (l : Lexer) : l.begin.ahead = l.ahead := by
  unfold begin; split <;> rfl

@[simp] theorem ahead_advance (l : Lexer) : l.advance.ahead = l.ahead.drop 1 := by
  unfold advance; split <;> simp_all

@[simp] theorem ahead_advanceBy (n : Nat) (l : Lexer) :
    (l.advanceBy n).ahead = l.ahead.drop n := by
  induction n generalizing l with
  | zero => rfl
  | succ n ih => simp [advanceBy, ih]

theorem ahead_skipBlanks_length_le (l : Lexer) :
    l.skipBlanks.ahead.length ≤ l.ahead.length := by
  simp [skipBlanks]

end Lexer

theorem Numeral.chars_ofFront_ne_nil {c : Char} (cs : List Char)
    (h : (Decimal.isDigit c || c == '.') = true) :
    (Numeral.ofFront (c :: cs)).chars ≠ [] := by
  by_cases hd : Decimal.isDigit c = true
  · unfold Numeral.ofFront
    split <;> simp [Numeral.chars, hd]
  · have hc : c = '.' := by simpa [hd] using h
    subst hc
    simp [Numeral.ofFront, Numeral.chars, hd]

theorem Lexeme.chars_ofWord (cs : List Char) : (Lexeme.ofWord cs).chars = cs := by
  unfold Lexeme.ofWord
  split <;> rfl

theorem Lexeme.kind_ofWord_ne_endOfInput (cs : List Char) :
    (Lexeme.ofWord cs).kind ≠ .endOfInput := by
  unfold Lexeme.ofWord
  split
  · rename_i k h
    simp only [keywords, List.lookup_cons, List.lookup_nil] at h
    grind
  · simp

theorem Lexeme.chars_ofFront_ne_nil (c : Char) (cs : List Char) :
    (Lexeme.ofFront c cs).chars ≠ [] := by
  unfold Lexeme.ofFront
  split
  · simp [Lexeme.chars_ofWord]
  · split
    · rename_i h
      unfold Lexeme.ofNumeral
      split
      · simp
      · exact Numeral.chars_ofFront_ne_nil cs h
    · simp

theorem Lexeme.kind_ofFront_ne_endOfInput (c : Char) (cs : List Char) :
    (Lexeme.ofFront c cs).kind ≠ .endOfInput := by
  unfold Lexeme.ofFront
  split
  · exact Lexeme.kind_ofWord_ne_endOfInput _
  · split
    · unfold Lexeme.ofNumeral
      split <;> simp
    · simp

namespace Lexer

/-- A token other than the end of the input takes at least one character. -/
theorem ahead_cut_length_lt (l : Lexer) (h : l.cut.1.kind ≠ .endOfInput) :
    l.cut.2.ahead.length < l.ahead.length := by
  unfold cut at h ⊢
  split at h
  · simp at h
  · rename_i c cs hcs
    have hpos := List.length_pos_iff.2 (Lexeme.chars_ofFront_ne_nil c cs)
    simp only [hcs, ahead_advanceBy, List.length_drop, List.length_cons]
    omega

theorem ahead_scan_length_lt (l : Lexer) (h : l.scan.1.kind ≠ .endOfInput) :
    l.scan.2.ahead.length < l.ahead.length := by
  have hle := ahead_skipBlanks_length_le l.begin
  rw [ahead_begin] at hle
  exact Nat.lt_of_lt_of_le (ahead_cut_length_lt _ h) hle

def drain (l : Lexer) : List Token × Lexer :=
  let r := l.scan
  if _h : r.1.kind = .endOfInput then ([r.1], r.2)
  else
    let rest := r.2.drain
    (r.1 :: rest.1, rest.2)
termination_by l.ahead.length
decreasing_by exact ahead_scan_length_lt l _h

end Lexer

def tokenize (s file : String) : List Token := (Lexer.ofString s file).drain.1

end ExprCompiler
