import Mathlib.Data.List.Forall2
import TokenTree.Config.Document

/-!
# What documents say

A document says what settings are asked for if it is written as settings are: a record or a list of
the parts, of which each is a text, a list of texts, or a list of comment styles (`Describes`). A
record gives no part twice. To read a document is to find what it says (`settings?_eq_some_iff`), so
that it makes no difference whether settings are asked for in a document or directly
(`Config.load_eq_build`).
-/

namespace TokenTree

namespace Document

variable {α : Type} {Says : Document → α → Prop} {read : Document → Option α} {default a : α}
  {d : Document} {items : List Document}

/-! ## Documents that say something -/

/-- What a value says, or `default` where there is none. -/
inductive Optional (Says : Document → α → Prop) (default : α) : Option Document → α → Prop
  | given {d : Document} {a : α} (h : Says d a) : Optional Says default (some d) a
  | missing : Optional Says default none default

/-- The value is a text. -/
inductive IsText : Document → Text → Prop
  | text (t : Text) : IsText (.text t) t

/-- The value is the end of a comment, or says that there is none. -/
inductive IsEnd : Document → Option Text → Prop
  | null : IsEnd .null none
  | text (t : Text) : IsEnd (.text t) (some t)

/-- The value is a list, each of whose items says something. -/
inductive IsList (Says : Document → α → Prop) : Document → List α → Prop
  | list {items : List Document} {l : List α} (h : List.Forall₂ Says items l) :
    IsList Says (.list items) l

/-- The value is a comment style. -/
inductive IsStyle : Document → CommentStyle → Prop
  | record {fields : List (String × Document)} {start : Text} {close : Option Text}
    (once : ((names fields).filter styleFields.contains).Nodup)
    (hstart : fields.lookup "start" = some (.text start))
    (hclose : Optional IsEnd none (fields.lookup "end") close) :
    IsStyle (.record fields) ⟨start, close⟩
  | line (start : Text) : IsStyle (.list [.text start]) ⟨start, none⟩
  | block {start : Text} {stop : Document} {close : Option Text} (hclose : IsEnd stop close) :
    IsStyle (.list [.text start, stop]) ⟨start, close⟩

/-- The symbols where a document does not give any. -/
def defaultSymbols : Text := "+-%=<>!&|^~?:;,@#$".toList

/-- The values that are there say what the parts of settings are, and the others have their
defaults. -/
structure Parts (symbols? styles? operators? : Option Document) (symbols : Text)
    (styles : List CommentStyle) (operators : List Text) : Prop where
  symbols : Optional IsText defaultSymbols symbols? symbols
  styles : Optional (IsList IsStyle) Settings.default.styles styles? styles
  operators : Optional (IsList IsText) Settings.default.operators operators? operators

/-- The document says what the parts of settings are. -/
inductive Describes : Document → Text → List CommentStyle → List Text → Prop
  | record {fields : List (String × Document)} {symbols : Text} {styles : List CommentStyle}
    {operators : List Text} (known : ∀ name ∈ names fields, name ∈ settingsFields)
    (once : (names fields).Nodup)
    (parts : Parts (fields.lookup "symbols") (fields.lookup "comment_styles")
      (fields.lookup "operators") symbols styles operators) :
    Describes (.record fields) symbols styles operators
  | list {items : List Document} {symbols : Text} {styles : List CommentStyle}
    {operators : List Text} (known : items.length ≤ settingsFields.length)
    (parts : Parts items[0]? items[1]? items[2]? symbols styles operators) :
    Describes (.list items) symbols styles operators

/-- A comment style as a record. -/
def ofStyle (style : CommentStyle) : Document :=
  .record [("start", .text style.start), ("end", style.close.elim .null .text)]

/-- Settings as a record of all their parts. -/
def ofParts (symbols : Text) (styles : List CommentStyle) (operators : List Text) : Document :=
  .record [("symbols", .text symbols), ("comment_styles", .list (styles.map ofStyle)),
    ("operators", .list (operators.map .text))]

theorem isStyle_ofStyle (style : CommentStyle) : IsStyle (ofStyle style) style := by
  have once : (styleFields.filter styleFields.contains).Nodup := by decide
  obtain ⟨start, close⟩ := style
  cases close with
  | none => exact .record once rfl (.given .null)
  | some stop => exact .record once rfl (.given (.text stop))

theorem isList_map {write : α → Document} (h : ∀ a, Says (write a) a) (l : List α) :
    IsList Says (.list (l.map write)) l := by
  refine .list ?_
  rw [List.forall₂_map_left_iff, List.forall₂_same]
  exact fun a _ => h a

/-- All settings can be asked for in a document. -/
theorem describes_ofParts (symbols : Text) (styles : List CommentStyle) (operators : List Text) :
    Describes (ofParts symbols styles operators) symbols styles operators := by
  have once : settingsFields.Nodup := by decide
  refine .record (fun name hname => hname) once ⟨?_, ?_, ?_⟩
  · exact .given (.text symbols)
  · exact .given (isList_map isStyle_ofStyle styles)
  · exact .given (isList_map .text operators)

/-! ## Reading them -/

theorem text?_eq_some_iff {t : Text} : d.text? = some t ↔ IsText d t := by
  constructor
  · intro h
    cases d <;> cases h
    exact .text _
  · rintro ⟨⟩
    rfl

theorem optionalText?_eq_some_iff {t : Option Text} : d.optionalText? = some t ↔ IsEnd d t := by
  constructor
  · intro h
    cases d <;> cases h
    · exact .null
    · exact .text _
  · rintro ⟨⟩
    · rfl
    · rfl

theorem field?_eq_lookup (fields : List (String × Document)) (name : String) :
    field? fields name = fields.lookup name := by
  induction fields with
  | nil => rfl
  | cons field fields ih =>
    obtain ⟨key, value⟩ := field
    rw [field?, List.find?_cons, List.lookup_cons, Bool.beq_comm]
    cases name == key with
    | true => rfl
    | false => exact ih

theorem readOr_eq_some_iff (h : ∀ {d a}, read d = some a ↔ Says d a) {d? : Option Document} :
    readOr default read d? = some a ↔ Optional Says default d? a := by
  cases d? with
  | none =>
    constructor
    · rintro ⟨⟩
      exact .missing
    · rintro ⟨⟩
      rfl
  | some d =>
    refine h.trans ⟨.given, ?_⟩
    rintro ⟨hd⟩
    exact hd

theorem mapM_eq_some_iff (h : ∀ {d a}, read d = some a ↔ Says d a) {l : List α} :
    items.mapM read = some l ↔ List.Forall₂ Says items l := by
  induction items generalizing l with
  | nil => simp [eq_comm]
  | cons d items ih =>
    rw [List.mapM_cons, List.forall₂_cons_left_iff]
    simp only [Option.bind_eq_bind, Option.bind_eq_some_iff, h, ih, Option.pure_def,
      Option.some_inj]
    constructor
    · rintro ⟨a, ha, as, has, rfl⟩
      exact ⟨a, as, ha, has, rfl⟩
    · rintro ⟨a, as, ha, has, rfl⟩
      exact ⟨a, ha, as, has, rfl⟩

theorem list?_eq_some_iff (h : ∀ {d a}, read d = some a ↔ Says d a) {l : List α} :
    d.list?.bind (·.mapM read) = some l ↔ IsList Says d l := by
  constructor
  · intro hlist
    obtain ⟨items, hitems, hread⟩ := Option.bind_eq_some_iff.1 hlist
    cases d <;> cases hitems
    exact .list ((mapM_eq_some_iff h).1 hread)
  · rintro ⟨hitems⟩
    exact (mapM_eq_some_iff h).2 hitems

theorem styleOf?_eq_some_iff {start? stop? : Option Document} {style : CommentStyle} :
    styleOf? start? stop? = some style ↔
      start? = some (.text style.start) ∧ Optional IsEnd none stop? style.close := by
  simp only [styleOf?, Option.bind_eq_bind, Option.bind_eq_some_iff, text?_eq_some_iff,
    readOr_eq_some_iff optionalText?_eq_some_iff, Option.pure_def, Option.some_inj]
  constructor
  · rintro ⟨d, rfl, start, ⟨⟩, close, hclose, rfl⟩
    exact ⟨rfl, hclose⟩
  · rintro ⟨rfl, hclose⟩
    exact ⟨_, rfl, style.start, .text _, style.close, hclose, rfl⟩

theorem style?_eq_some_iff {style : CommentStyle} : d.style? = some style ↔ IsStyle d style := by
  constructor
  · intro h
    unfold style? at h
    split at h
    · split at h
      · next once =>
        obtain ⟨hstart, hclose⟩ := styleOf?_eq_some_iff.1 h
        rw [field?_eq_lookup] at hstart hclose
        exact .record once hstart hclose
      · cases h
    · obtain ⟨⟨⟩, hclose⟩ := styleOf?_eq_some_iff.1 h
      obtain ⟨start, close⟩ := style
      cases hclose
      exact .line start
    · obtain ⟨⟨⟩, ⟨hclose⟩⟩ := styleOf?_eq_some_iff.1 h
      exact .block hclose
    · cases h
  · intro h
    cases h with
    | record once hstart hclose =>
      rw [← field?_eq_lookup] at hstart hclose
      rw [style?, if_pos once]
      exact styleOf?_eq_some_iff.2 ⟨hstart, hclose⟩
    | line start => rfl
    | block hclose => exact styleOf?_eq_some_iff.2 ⟨rfl, .given hclose⟩

/-- The set of symbols that a value gives. -/
theorem readOr_symbols_eq_some_iff {d? : Option Document} {symbols : SymbolSet} :
    readOr Settings.default.symbols (fun d => d.text?.map SymbolSet.ofList) d? = some symbols ↔
      ∃ t, symbols = .ofList t ∧ Optional IsText defaultSymbols d? t := by
  cases d? with
  | none =>
    constructor
    · rintro ⟨⟩
      exact ⟨defaultSymbols, rfl, .missing⟩
    · rintro ⟨t, rfl, ⟨⟩⟩
      rfl
  | some d =>
    constructor
    · intro h
      obtain ⟨t, ht, rfl⟩ := Option.map_eq_some_iff.1 h
      exact ⟨t, rfl, .given (text?_eq_some_iff.1 ht)⟩
    · rintro ⟨t, rfl, ⟨ht⟩⟩
      exact Option.map_eq_some_iff.2 ⟨t, text?_eq_some_iff.2 ht, rfl⟩

theorem settingsOf?_eq_some_iff {symbols? styles? operators? : Option Document} {s : Settings} :
    settingsOf? symbols? styles? operators? = some s ↔
      ∃ symbols, s.symbols = .ofList symbols ∧
        Parts symbols? styles? operators? symbols s.styles s.operators := by
  simp only [settingsOf?, Option.bind_eq_bind, Option.bind_eq_some_iff, Option.pure_def,
    Option.some_inj, readOr_symbols_eq_some_iff,
    readOr_eq_some_iff (list?_eq_some_iff style?_eq_some_iff),
    readOr_eq_some_iff (list?_eq_some_iff text?_eq_some_iff)]
  constructor
  · rintro ⟨_, ⟨symbols, rfl, hsymbols⟩, styles, hstyles, operators, hoperators, rfl⟩
    exact ⟨symbols, rfl, hsymbols, hstyles, hoperators⟩
  · rintro ⟨symbols, hset, hsymbols, hstyles, hoperators⟩
    exact ⟨_, ⟨symbols, rfl, hsymbols⟩, _, hstyles, _, hoperators, by rw [← hset]⟩

/-- Reading a document gives the settings whose parts it describes. -/
theorem settings?_eq_some_iff {s : Settings} :
    d.settings? = some s ↔
      ∃ symbols, s.symbols = .ofList symbols ∧ d.Describes symbols s.styles s.operators := by
  constructor
  · intro h
    unfold settings? at h
    split at h
    · next fields =>
      split at h
      · next hfields =>
        obtain ⟨known, once⟩ := hfields
        obtain ⟨symbols, hset, hparts⟩ := settingsOf?_eq_some_iff.1 h
        simp only [field?_eq_lookup] at hparts
        refine ⟨symbols, hset, .record (fun name hname => ?_) once hparts⟩
        exact List.contains_iff_mem.1 (List.all_eq_true.1 known name hname)
      · cases h
    · split at h
      · next known =>
        obtain ⟨symbols, hset, hparts⟩ := settingsOf?_eq_some_iff.1 h
        exact ⟨symbols, hset, .list known hparts⟩
      · cases h
    · cases h
  · rintro ⟨symbols, hset, hdescribes⟩
    cases hdescribes with
    | @record fields _ _ _ known once parts =>
      simp only [← field?_eq_lookup] at parts
      have hall : (names fields).all settingsFields.contains = true :=
        List.all_eq_true.2 fun name hname => List.contains_iff_mem.2 (known name hname)
      rw [settings?, if_pos ⟨hall, once⟩]
      exact settingsOf?_eq_some_iff.2 ⟨symbols, hset, parts⟩
    | list known parts =>
      rw [settings?, if_pos known]
      exact settingsOf?_eq_some_iff.2 ⟨symbols, hset, parts⟩

end Document

namespace Config

variable {d : Document} {symbols : Text} {styles : List CommentStyle} {operators : List Text}

/-- It makes no difference whether a document asks for settings. -/
theorem load_eq_build (h : d.Describes symbols styles operators) :
    load d = (Settings.build ⟨.ofList symbols, styles, operators⟩).mapError .rejected := by
  have hread : d.settings? = some ⟨.ofList symbols, styles, operators⟩ :=
    Document.settings?_eq_some_iff.2 ⟨symbols, rfl, h⟩
  simp only [load, hread]
  cases Settings.build ⟨.ofList symbols, styles, operators⟩ <;> rfl

/-- A document is malformed if it describes no settings, and only then. -/
theorem load_eq_malformed_iff :
    load d = .error .malformed ↔
      ∀ symbols styles operators, ¬ d.Describes symbols styles operators := by
  constructor
  · intro h symbols styles operators hdescribes
    rw [load_eq_build hdescribes] at h
    cases hbuild : Settings.build ⟨.ofList symbols, styles, operators⟩ with
    | ok config => rw [hbuild] at h; cases h
    | error e => rw [hbuild] at h; cases h
  · intro h
    have hread : d.settings? = none := by
      refine Option.eq_none_iff_forall_ne_some.2 fun s hs => ?_
      obtain ⟨symbols, -, hdescribes⟩ := Document.settings?_eq_some_iff.1 hs
      exact h symbols s.styles s.operators hdescribes
    rw [load, hread]

end Config

end TokenTree
