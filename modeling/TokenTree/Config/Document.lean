import TokenTree.Config.Basic

/-!
# Configuration documents

Settings are stored as a document: a record with the fields `symbols` (a text), `comment_styles` (a
list of records with `start` and an optional `end`) and `operators` (a list of texts). A field that
is missing has its default, no field may be given twice, and no other field may stand beside them. A
record may also be written as the list of its fields' values in this order, of which the last ones
may be missing.
-/

namespace TokenTree

/-- A structured value as configuration files hold it. -/
inductive Document where
  | null
  /-- A truth value or a number, neither of which has a place in settings. -/
  | scalar
  | text (text : Text)
  | list (items : List Document)
  /-- Named values. -/
  | record (fields : List (String × Document))

instance : Inhabited Document := ⟨.null⟩

namespace Document

/-- The text that the value is. -/
def text? : Document → Option Text
  | text t => some t
  | _ => none

/-- The list that the value is. -/
def list? : Document → Option (List Document)
  | list items => some items
  | _ => none

/-- The text that the value is, or nothing for no value. -/
def optionalText? : Document → Option (Option Text)
  | null => some none
  | text t => some (some t)
  | _ => none

/-- The value with that name. -/
def field? (fields : List (String × Document)) (name : String) : Option Document :=
  (fields.find? (·.1 == name)).map Prod.snd

/-- The names of the fields. -/
def names (fields : List (String × Document)) : List String := fields.map Prod.fst

/-- What `read` makes of a value, or `missing` where there is none. -/
def readOr {α : Type} (missing : α) (read : Document → Option α) : Option Document → Option α
  | none => some missing
  | some d => read d

/-- The comment style with the given start and end. -/
def styleOf? (start stop : Option Document) : Option CommentStyle := do
  let start ← start
  return ⟨← start.text?, ← readOr none optionalText? stop⟩

/-- The names of the parts of comment styles, in order. -/
def styleFields : List String := ["start", "end"]

/-- The comment style that the value describes. Fields of other names are ignored, and only these
may be given twice. -/
def style? : Document → Option CommentStyle
  | record fields =>
    if ((names fields).filter styleFields.contains).Nodup then
      styleOf? (field? fields "start") (field? fields "end")
    else none
  | list [start] => styleOf? (some start) none
  | list [start, stop] => styleOf? (some start) (some stop)
  | _ => none

/-- The settings with the given parts. -/
def settingsOf? (symbols styles operators : Option Document) : Option Settings := do
  let default := Settings.default
  return {
    symbols := ← readOr default.symbols (fun d => d.text?.map SymbolSet.ofList) symbols
    styles := ← readOr default.styles (fun d => d.list?.bind (·.mapM style?)) styles
    operators := ← readOr default.operators (fun d => d.list?.bind (·.mapM text?)) operators }

/-- The names of the parts of settings, in order. -/
def settingsFields : List String := ["symbols", "comment_styles", "operators"]

/-- The settings that the value describes. -/
def settings? : Document → Option Settings
  | record fields =>
    if (names fields).all settingsFields.contains ∧ (names fields).Nodup then
      settingsOf? (field? fields "symbols") (field? fields "comment_styles")
        (field? fields "operators")
    else none
  | list items =>
    if items.length ≤ settingsFields.length then settingsOf? items[0]? items[1]? items[2]?
    else none
  | _ => none

end Document

/-- Why a document gives no configuration. -/
inductive LoadError where
  /-- It does not describe settings. -/
  | malformed
  /-- It describes settings that are not accepted. -/
  | rejected (error : ConfigError)
  deriving DecidableEq

/-- The configuration that a document describes. -/
def Config.load (d : Document) : Except LoadError Config :=
  match d.settings? with
  | none => .error .malformed
  | some s =>
    match s.build with
    | .ok config => .ok config
    | .error e => .error (.rejected e)

end TokenTree
