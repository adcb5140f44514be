import TokenTree.Config.Basic
import TokenTree.Segment.Basic
import TokenTree.Token.Basic

/-!
# One step of the scanner

The scanner cuts a text into pieces: the leaves of the token tree and the brackets between them. One
`step` looks at the text from the start of a piece on and says what that piece is and how long, or
which construct it starts, or that the text to come decides. It depends on nothing before the piece,
and so not on the brackets that are open.

Strings and comments are searched for their end in a `Mode`, which remembers how much of the text
was searched before, so that no text is searched again when more of it arrives. While more text may
follow (`final` is not set) the scanner waits wherever that text could change its answer. When none
follows it never waits: a quote that is never closed is a symbol, and scanning goes on behind it.
-/

namespace TokenTree

/-- What the scanner is in the middle of. A number of bytes that were searched counts from the start
of the construct. -/
inductive Mode where
  /-- Between pieces. -/
  | normal
  /-- In a string. -/
  | string (quote : Quote) (scanned : Nat) (escaped : Bool)
  /-- In a comment that ends with its line. -/
  | lineComment (scanned : Nat)
  /-- In a comment of the style at that index, which ends with `close`. -/
  | blockComment (style : Nat) (close : Text) (scanned : Nat)
  deriving DecidableEq

/-- What a piece is in the token tree. -/
inductive PieceKind where
  | leaf (kind : LeafKind)
  /-- A block comment that the end of the input cuts short. -/
  | unterminated
  | opener (delimiter : Delimiter)
  | closer (delimiter : Delimiter)
  deriving DecidableEq

/-- What the scanner makes of the text at its position. -/
inductive Step where
  /-- The next `count` characters are a piece. -/
  | piece (kind : PieceKind) (count : Nat)
  /-- A string or a comment starts here. -/
  | enter (mode : Mode)
  /-- More text is needed; it may lengthen the run that all of the text at hand is. -/
  | wait (mode : Mode) (run : Option Run)
  /-- There is no text left. -/
  | done
  deriving DecidableEq

/-- The mode in which the end of a comment is searched for, its start being behind. -/
def CommentStyle.mode (style : CommentStyle) (index : Nat) : Mode :=
  match style.close with
  | none => .lineComment (Text.size style.start)
  | some close => .blockComment index close (Text.size style.start)

/-- The run that segments of the class are. -/
def CharClass.run? : CharClass → Option Run
  | .run r => some r
  | _ => none

namespace Step

/-! ## Strings and comments -/

/-- Where a string ends. -/
inductive Quoted where
  /-- After so many characters. -/
  | closed (count : Nat)
  /-- Beyond the text, the next character of which is escaped or not. -/
  | unfinished (escaped : Bool)
  deriving DecidableEq

/-- Searches for the first quote that no backslash escapes. A backslash escapes one character. -/
def findQuote (quote : Char) (escaped : Bool) (count : Nat) : Text → Quoted
  | [] => .unfinished escaped
  | c :: r =>
    if escaped then findQuote quote false (count + 1) r
    else if c = '\\' then findQuote quote true (count + 1) r
    else if c = quote then .closed (count + 1)
    else findQuote quote false (count + 1) r

/-- A string, searched up to byte `scanned`. -/
def string (final : Bool) (quote : Quote) (scanned : Nat) (escaped : Bool) (rest : Text) : Step :=
  let (seen, unseen) := rest.seek scanned
  match findQuote quote.char escaped seen unseen with
  | .closed count => .piece (.leaf (.string quote)) count
  | .unfinished escaped =>
    if final then .piece (.leaf .symbol) 1
    else .wait (.string quote (Text.size rest) escaped) none

/-- The character ends a line. -/
def isLineEnd (c : Char) : Bool := c == '\n' || c == '\r'

/-- A comment up to the end of the line, searched up to byte `scanned`. -/
def lineComment (final : Bool) (scanned : Nat) (rest : Text) : Step :=
  let (seen, unseen) := rest.seek scanned
  match unseen.findIdx? isLineEnd with
  | some count => .piece (.leaf (.comment .line)) (seen + count)
  | none =>
    if final then .piece (.leaf (.comment .line)) rest.length
    else .wait (.lineComment (Text.size rest)) none

/-- A comment up to the first `close`, searched up to byte `scanned`. Of the text at hand all is
searched but the last bytes, with which a closing delimiter could begin. -/
def blockComment (final : Bool) (style : Nat) (close : Text) (scanned : Nat) (rest : Text) : Step :=
  let (seen, unseen) := rest.seek scanned
  match unseen.endOf? close with
  | some count => .piece (.leaf (.comment .block)) (seen + count)
  | none =>
    if final then .piece .unterminated rest.length
    else
      .wait (.blockComment style close (max scanned (Text.size rest - (Text.size close - 1)))) none

/-! ## Numbers -/

/-- What stands behind a decimal point. -/
inductive Fraction where
  /-- So many digits. -/
  | digits (count : Nat)
  /-- Digits, perhaps, or more of them: the text to come decides. -/
  | undecided
  /-- No digit. -/
  | absent
  deriving DecidableEq

/-- The digits that a text starts with. -/
def fraction (symbols : SymbolSet) (final : Bool) (rest : Text) : Fraction :=
  match symbols.munch rest with
  | some (.run .digits, word, after) =>
    if !final && SymbolSet.mayExtend (.run .digits) word after then .undecided
    else .digits word.length
  | some _ => .absent
  | none => if final then .absent else .undecided

/-- A number that starts with `count` digits, before `after`. -/
def number (symbols : SymbolSet) (final : Bool) (count : Nat) (after : Text) : Step :=
  match after with
  | [] => if final then .piece (.leaf .integer) count else .wait .normal none
  | c :: after =>
    if c = '.' then
      match fraction symbols final after with
      | .digits more => .piece (.leaf .float) (count + 1 + more)
      | .undecided => .wait .normal none
      | .absent => .piece (.leaf .integer) count
    else
      .piece (.leaf .integer) count

/-- A dot with no digit before it: the decimal point of a number, or a symbol. -/
def dot (symbols : SymbolSet) (final : Bool) (after : Text) : Step :=
  match fraction symbols final after with
  | .digits count => .piece (.leaf .float) (1 + count)
  | .undecided => .wait .normal none
  | .absent => .piece (.leaf .symbol) 1

/-! ## The step -/

/-- The piece that a segment starts, when no comment and no operator starts there. -/
def segment (symbols : SymbolSet) (final : Bool) (cls : CharClass) (word after : Text) : Step :=
  match cls with
  | .atom (.opening d) => .piece (.opener d) word.length
  | .atom (.closing d) => .piece (.closer d) word.length
  | .atom (.quote q) => .enter (.string q (Text.size word) false)
  | .atom .dot => dot symbols final after
  | .atom .backslash | .atom .slash | .atom .asterisk | .symbol =>
    .piece (.leaf .symbol) word.length
  | .run .digits => number symbols final word.length after
  | .run .text => .piece (.leaf .ident) word.length
  | .run .whitespace | .newline => .piece (.leaf .whitespace) word.length

/-- The piece at the start of a text: a comment before an operator, an operator before all else. -/
def normal (config : Config) (final : Bool) (rest : Text) : Step :=
  if rest.isEmpty then .done
  else
    match config.commentAt rest final with
    | .undecided => .wait .normal none
    | .found index style => .enter (style.mode index)
    | .absent =>
      match config.operatorAt rest final with
      | .undecided => .wait .normal none
      | .found _ operator => .piece (.leaf .operator) operator.length
      | .absent =>
        match config.symbols.munch rest with
        | none => .done
        | some (cls, word, after) =>
          if !final && SymbolSet.mayExtend cls word after then .wait .normal cls.run?
          else segment config.symbols final cls word after

end Step

/-- What the scanner makes of the text from the start of the piece on that it is in. -/
def step (config : Config) (final : Bool) (mode : Mode) (rest : Text) : Step :=
  match mode with
  | .normal => .normal config final rest
  | .string quote scanned escaped => .string final quote scanned escaped rest
  | .lineComment scanned => .lineComment final scanned rest
  | .blockComment style close scanned => .blockComment final style close scanned rest

end TokenTree
