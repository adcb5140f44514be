import TokenTree.Config.Prefix
import TokenTree.SymbolSet

/-!
# Configuration

Three things can be configured: which characters are symbols, how comments are delimited, and which
sequences of symbols are operators. `Settings` are what was asked for. They are accepted (`check`)
when no delimiter is empty, no two comment styles start alike, and every operator has at least two
characters, all of them symbols or one of four atoms. A `Config` is accepted settings.
-/

namespace TokenTree

/-- One way to write comments. -/
structure CommentStyle where
  /-- What starts a comment. -/
  start : Text
  /-- What ends a comment; without it the comment ends with its line. -/
  close : Option Text
  deriving DecidableEq

/-- Comments of the style end with their line. -/
def CommentStyle.isLine (s : CommentStyle) : Bool := s.close.isNone

/-- What is asked of a configuration. -/
structure Settings where
  /-- The characters that are tokens of their own. -/
  symbols : SymbolSet
  /-- The ways to write comments. -/
  styles : List CommentStyle
  /-- The sequences of symbols that are one token. -/
  operators : List Text
  deriving DecidableEq

/-- Why settings are not accepted. -/
inductive ConfigError where
  /-- The comment style at that index starts with nothing. -/
  | emptyCommentStart (index : Nat)
  /-- The comment style that starts so is ended by nothing. -/
  | emptyCommentEnd (start : Text)
  /-- Two comment styles start so. -/
  | duplicateCommentStart (start : Text)
  /-- The operator is a single character or none. -/
  | operatorTooShort (operator : Text)
  /-- The operator has a character that no operator may have. -/
  | operatorChar (operator : Text) (char : Char)
  deriving DecidableEq

/-- The wording of the error. -/
def ConfigError.message : ConfigError → String
  | emptyCommentStart index =>
    "comment style #" ++ toString index ++ " has an empty start delimiter"
  | emptyCommentEnd start =>
    "comment style `" ++ String.ofList start ++ "` has an empty end delimiter"
  | duplicateCommentStart start =>
    "comment start `" ++ String.ofList start ++ "` is configured more than once"
  | operatorTooShort operator =>
    "operator `" ++ String.ofList operator ++ "` must be at least two characters long"
  | operatorChar operator char =>
    "operator `" ++ String.ofList operator ++ "` contains `" ++ String.singleton char
      ++ "`, which is neither a symbol nor one of `/ * . \\`"

namespace Settings

/-- The symbols, line comments and block comments of most languages, and no operators. -/
def default : Settings where
  symbols := .ofList "+-%=<>!&|^~?:;,@#$".toList
  styles := [⟨['/', '/'], none⟩, ⟨['/', '*'], some ['*', '/']⟩]
  operators := []

/-- The atoms that an operator may have besides symbols. -/
def operatorAtoms : List Char := ['/', '*', '.', '\\']

/-- Finds the first comment style that is not acceptable after the earlier ones. -/
def checkStyles (earlier : List CommentStyle) : List CommentStyle → Except ConfigError Unit
  | [] => .ok ()
  | style :: styles =>
    if style.start = [] then .error (.emptyCommentStart earlier.length)
    else if style.close = some [] then .error (.emptyCommentEnd style.start)
    else if earlier.any (·.start = style.start) then .error (.duplicateCommentStart style.start)
    else checkStyles (style :: earlier) styles

/-- The character may be part of an operator. -/
def isOperatorChar (s : Settings) (c : Char) : Bool :=
  s.symbols.contains c || operatorAtoms.contains c

/-- Finds the first operator that is not acceptable. -/
def checkOperators (s : Settings) : List Text → Except ConfigError Unit
  | [] => .ok ()
  | operator :: operators =>
    if operator.length < 2 then .error (.operatorTooShort operator)
    else
      match operator.find? (!s.isOperatorChar ·) with
      | some c => .error (.operatorChar operator c)
      | none => checkOperators s operators

/-- Finds the first fault of the settings: comment styles come before operators. -/
def check (s : Settings) : Except ConfigError Unit :=
  match checkStyles [] s.styles with
  | .error e => .error e
  | .ok () => s.checkOperators s.operators

end Settings

/-- Accepted settings. -/
structure Config extends Settings where
  /-- The settings have no fault. -/
  accepted : toSettings.check = .ok ()

/-- The configuration with these settings, or their first fault. -/
def Settings.build (s : Settings) : Except ConfigError Config :=
  match h : s.check with
  | .ok () => .ok ⟨s, h⟩
  | .error e => .error e

namespace Config

/-- The configuration with the default settings. -/
def default : Config := ⟨Settings.default, rfl⟩

instance : Inhabited Config := ⟨default⟩

/-- The comment style that a text starts with. -/
def commentAt (c : Config) (rest : Text) (final : Bool) : PrefixMatch CommentStyle :=
  .find CommentStyle.start c.styles rest final

/-- The operator that a text starts with. -/
def operatorAt (c : Config) (rest : Text) (final : Bool) : PrefixMatch Text :=
  .find id c.operators rest final

end Config

end TokenTree
