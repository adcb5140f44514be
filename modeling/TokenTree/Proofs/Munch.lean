import TokenTree.Proofs.Places

/-!
# Priority and maximal munch

Where a token starts, nothing starts that goes before tokens of its kind (`PieceKind.Prior`): a
comment goes before all else, and an operator before all but comments. And a token goes on as far as
one of its kind can (`LeafKind.Munched`): a name, a number or white space is not followed by what
would lengthen it, and of the operators that fit it is the longest. Both hold of the first piece of
any text (`FirstPiece.prior`, `FirstPiece.munched`) and so of every token of a tree (`lex_munches`).

A run of more than `maxOffset` bytes is too long to be measured, and is cut in two
(`lex_munches_fails_beyond`).
-/

namespace TokenTree

/-! ## Priority -/

namespace Config

/-- No comment starts where the text does. -/
def NoComment (config : Config) (text : Text) : Prop :=
  ∀ style ∈ config.styles, ¬ style.start <+: text

/-- No operator starts where the text does. -/
def NoOperator (config : Config) (text : Text) : Prop :=
  ∀ operator ∈ config.operators, ¬ operator <+: text

/-- Neither a comment nor an operator starts where the text does. -/
def Bare (config : Config) (text : Text) : Prop := config.NoComment text ∧ config.NoOperator text

variable {config : Config} {text : Text}

theorem noComment_of_absent (h : config.commentAt text true = .absent) : config.NoComment text :=
  PrefixMatch.not_prefix_of_find_absent h

theorem bare_of_absent (hc : config.commentAt text true = .absent)
    (ho : config.operatorAt text true = .absent) : config.Bare text :=
  ⟨noComment_of_absent hc, PrefixMatch.not_prefix_of_find_absent ho⟩

end Config

/-- Nothing that goes before leaves of the kind starts where the text does. -/
def LeafKind.Prior (config : Config) (text : Text) : LeafKind → Prop
  | comment _ => True
  | operator => config.NoComment text
  | _ => config.Bare text

/-- Nothing that goes before pieces of the kind starts where the text does. -/
def PieceKind.Prior (config : Config) (text : Text) : PieceKind → Prop
  | leaf k => k.Prior config text
  | unterminated => True
  | opener _ => config.Bare text
  | closer _ => config.Bare text

section

variable {config : Config} {text : Text} {kind : PieceKind} {count : Nat}

theorem PieceKind.Prior.of_absent (hc : config.commentAt text true = .absent)
    (ho : config.operatorAt text true = .absent) (kind : PieceKind) : kind.Prior config text := by
  have hbare : config.Bare text := Config.bare_of_absent hc ho
  cases kind with
  | leaf k =>
    cases k with
    | comment _ => trivial
    | operator => exact hbare.1
    | _ => exact hbare
  | unterminated => trivial
  | opener _ => exact hbare
  | closer _ => exact hbare

theorem FirstPiece.prior (h : FirstPiece config text kind count) : kind.Prior config text := by
  cases h with
  | lineComment _ _ _ => trivial
  | blockComment _ _ _ _ => trivial
  | unterminated _ _ _ _ => trivial
  | operator hc _ => exact Config.noComment_of_absent hc
  | string hc ho _ _ => exact .of_absent hc ho _
  | quote hc ho _ _ => exact .of_absent hc ho _
  | segment hc ho _ _ => exact .of_absent hc ho kind

end

/-! ## Maximal munch -/

/-- The text is a run of characters with the property, which the first one behind it has not. -/
structure Text.IsRun (p : Char → Prop) (text after : Text) : Prop where
  ne_nil : text ≠ []
  all : ∀ c ∈ text, p c
  stops : ∀ c ∈ after.head?, ¬ p c

/-- The text is one of a leaf of the kind, and no longer one that starts there is. -/
def LeafKind.Munched (config : Config) (text after : Text) : LeafKind → Prop
  | ident => text.IsRun (fun c => config.symbols.classOf c = .run .text) after
  | whitespace =>
    text = ['\n'] ∨ text = ['\r', '\n'] ∨ text = ['\r'] ∧ after.head? ≠ some '\n' ∨
      text.IsRun (fun c => Text.isBlank c = true ∧ c ≠ '\n' ∧ c ≠ '\r') after
  | symbol =>
    ∃ c, text = [c] ∧
      (config.symbols.contains c = true ∨ c ∈ ['\\', '/', '*', '.'] ∨ ∃ q : Quote, c = q.char) ∧
      (c = '.' → ∀ d ∈ after.head?, d.isDigit = false)
  | operator =>
    text ∈ config.operators ∧
      ∀ operator ∈ config.operators, operator <+: text ++ after → operator.length ≤ text.length
  | integer =>
    text.IsRun (fun c => c.isDigit = true) after ∧
      ∀ d rest, after = '.' :: d :: rest → d.isDigit = false
  | float =>
    ∃ whole fraction, text = whole ++ '.' :: fraction ∧ (∀ c ∈ whole, c.isDigit = true) ∧
      Text.IsRun (fun c => c.isDigit = true) fraction after
  | string _ => True
  | comment _ => True

namespace SymbolSet

variable {symbols : SymbolSet} {text word after : Text}

/-- A run of a class is a run of the characters that are of it. -/
theorem isRun_of_munch {k : Run} {p : Char → Prop}
    (h : symbols.munch text = some (.run k, word, after))
    (hp : ∀ c, symbols.classOf c = .run k ↔ p c) : word.IsRun p after := by
  obtain ⟨hall, hstop⟩ := munch_maximal h
  exact ⟨munch_ne_nil _ h, fun c hc => (hp c).1 (hall c hc),
    fun c hc hpc => hstop c hc ((hp c).2 hpc)⟩

end SymbolSet

namespace Step

variable {config : Config} {symbols : SymbolSet} {text word after rest : Text}

theorem isRun_of_fraction {n : Nat} (h : fraction symbols true rest = .digits n) :
    ∃ digits after, rest = digits ++ after ∧ digits.length = n ∧
      digits.IsRun (fun c => c.isDigit = true) after := by
  unfold fraction at h
  split at h
  · next digits after hm =>
    cases h
    exact ⟨digits, after, SymbolSet.munch_append _ hm, rfl,
      SymbolSet.isRun_of_munch hm fun _ => SymbolSet.classOf_digits_iff⟩
  · cases h
  · cases h

theorem no_digit_of_fraction (h : fraction symbols true rest = .absent) :
    ∀ d ∈ rest.head?, d.isDigit = false := by
  cases rest with
  | nil => exact nofun
  | cons c r =>
    intro d hd
    obtain rfl : c = d := Option.some.inj hd
    by_contra hdigit
    have hclass : symbols.classOf c = .run .digits :=
      SymbolSet.classOf_digits_iff.2 (by simpa using hdigit)
    simp [fraction, SymbolSet.munch_run hclass] at h

theorem munched_number {k : LeafKind} {count : Nat}
    (hm : config.symbols.munch text = some (.run .digits, word, after))
    (h : number config.symbols true word.length after = .piece (.leaf k) count) :
    ∃ front back, text = front ++ back ∧ front.length = count ∧ k.Munched config front back := by
  have hrun : word.IsRun (fun c => c.isDigit = true) after :=
    SymbolSet.isRun_of_munch hm fun _ => SymbolSet.classOf_digits_iff
  have htext : text = word ++ after := SymbolSet.munch_append _ hm
  cases after with
  | nil =>
    cases h
    exact ⟨word, [], htext, rfl, hrun, nofun⟩
  | cons c after =>
    simp only [number] at h
    split at h
    · next hdot =>
      subst hdot
      split at h
      · next n hf =>
        cases h
        obtain ⟨digits, back, rfl, rfl, hdigits⟩ := isRun_of_fraction hf
        refine ⟨word ++ '.' :: digits, back, ?_, ?_, word, digits, rfl, hrun.all, hdigits⟩
        · rw [htext, List.append_assoc, List.cons_append]
        · rw [List.length_append, List.length_cons]
          omega
      · cases h
      · next hf =>
        cases h
        refine ⟨word, '.' :: after, htext, rfl, hrun, ?_⟩
        intro d rest hd
        obtain ⟨-, rfl⟩ := List.cons.inj hd
        exact no_digit_of_fraction hf d rfl
    · next hdot =>
      cases h
      refine ⟨word, c :: after, htext, rfl, hrun, ?_⟩
      intro d rest hd
      exact absurd (List.cons.inj hd).1 hdot

theorem munched_dot {k : LeafKind} {count : Nat}
    (h : dot config.symbols true after = .piece (.leaf k) count) :
    ∃ front back, '.' :: after = front ++ back ∧ front.length = count ∧
      k.Munched config front back := by
  simp only [dot] at h
  split at h
  · next n hf =>
    cases h
    obtain ⟨digits, back, rfl, rfl, hdigits⟩ := isRun_of_fraction hf
    refine ⟨'.' :: digits, back, rfl, ?_, [], digits, rfl, List.forall_mem_nil _, hdigits⟩
    rw [List.length_cons, Nat.add_comm]
  · cases h
  · next hf =>
    cases h
    exact ⟨['.'], after, rfl, rfl, '.', rfl, Or.inr (Or.inl (by simp)), fun _ =>
      no_digit_of_fraction hf⟩

/-- The leaf that a segment starts is as long as it can be. -/
theorem munched_segment {cls : CharClass} {k : LeafKind} {count : Nat}
    (hm : config.symbols.munch text = some (cls, word, after))
    (h : segment config.symbols true cls word after = .piece (.leaf k) count) :
    ∃ front back, text = front ++ back ∧ front.length = count ∧ k.Munched config front back := by
  have htext : text = word ++ after := SymbolSet.munch_append _ hm
  cases cls with
  | atom a =>
    have hword : word = [a.char] := SymbolSet.munch_atom hm
    subst hword
    cases a with
    | dot =>
      rw [htext]
      exact munched_dot h
    | opening d => cases h
    | closing d => cases h
    | quote q => cases h
    | backslash =>
      cases h
      exact ⟨['\\'], after, htext, rfl, '\\', rfl, Or.inr (Or.inl (by simp)), nofun⟩
    | slash =>
      cases h
      exact ⟨['/'], after, htext, rfl, '/', rfl, Or.inr (Or.inl (by simp)), nofun⟩
    | asterisk =>
      cases h
      exact ⟨['*'], after, htext, rfl, '*', rfl, Or.inr (Or.inl (by simp)), nofun⟩
  | run r =>
    cases r with
    | digits => exact munched_number hm h
    | text =>
      cases h
      exact ⟨word, after, htext, rfl, SymbolSet.isRun_of_munch hm fun _ => Iff.rfl⟩
    | whitespace =>
      cases h
      refine ⟨word, after, htext, rfl, Or.inr (Or.inr (Or.inr ?_))⟩
      exact SymbolSet.isRun_of_munch hm fun _ => SymbolSet.classOf_whitespace_iff
  | newline =>
    cases h
    refine ⟨word, after, htext, rfl, ?_⟩
    rcases SymbolSet.munch_break hm with hword | hword | hword
    · exact Or.inl hword
    · exact Or.inr (Or.inl hword)
    · exact Or.inr (Or.inr (Or.inl hword))
  | symbol =>
    cases h
    obtain ⟨c, rfl, hc⟩ := SymbolSet.munch_symbol hm
    obtain ⟨hcontains, hatom⟩ := SymbolSet.contains_of_classOf hc
    refine ⟨[c], after, htext, rfl, c, rfl, Or.inl hcontains, ?_⟩
    rintro rfl
    cases hatom

end Step

/-- The first leaf of a text is as long as it can be. -/
theorem FirstPiece.munched {config : Config} {text after : Text} {k : LeafKind}
    (h : FirstPiece config (text ++ after) (.leaf k) text.length) :
    k.Munched config text after := by
  generalize hwhole : text ++ after = whole at h
  generalize hcount : text.length = count at h
  cases h with
  | lineComment _ _ _ => trivial
  | blockComment _ _ _ _ => trivial
  | operator _ ho =>
    obtain ⟨hindex, back, hback⟩ := PrefixMatch.find_found ho
    obtain ⟨rfl, -⟩ := List.append_inj (hwhole.trans hback.symm) hcount
    refine ⟨List.mem_of_getElem? hindex, fun operator hmem hp => ?_⟩
    rw [hwhole] at hp
    exact PrefixMatch.length_le_of_find_found ho hmem hp
  | string _ _ _ _ => trivial
  | @quote q back _ _ _ htext _ =>
    have hcut : text ++ after = [q.char] ++ back := hwhole.trans htext
    have hlength : text.length = [q.char].length := hcount
    obtain ⟨rfl, -⟩ := List.append_inj hcut hlength
    refine ⟨q.char, rfl, Or.inr (Or.inr ⟨q, rfl⟩), fun hdot => ?_⟩
    cases q <;> cases hdot
  | segment _ _ hm hseg =>
    obtain ⟨front, back, htext, hfront, hmunched⟩ := Step.munched_segment hm hseg
    obtain ⟨rfl, rfl⟩ :=
      List.append_inj (hwhole.trans htext) (hcount.trans hfront.symm)
    exact hmunched

/-! ## Tokens -/

/-- Before what follows it in the input, the token has the place that its kind gives it, as has the
closing bracket of a block; and a leaf is as long as it can be. -/
def Token.Munched (config : Config) (after : Text) : Token → Prop
  | leaf k _ l => k.Prior config (l.text ++ after) ∧ k.Munched config l.text after
  | group (.block d) _ l _ =>
    config.Bare (l.text ++ after) ∧
      ∃ inside, l.text = d.opener :: (inside ++ [d.closer]) ∧ config.Bare (d.closer :: after)
  | group (.error .unterminatedComment) _ _ _ => True
  | group (.error _) _ l _ => config.Bare (l.text ++ after)
  | group (.composite _) _ _ _ => False

open Token

/-- Every token of a tree, at any depth, is where no comment starts, and no operator unless it is
one, and so is the closing bracket of a block. It is as long as a token of its kind can be there. -/
theorem lex_munches (config : Config) {source : Text} (hfit : Text.size source ≤ maxOffset) :
    Checked.lex config source = .ok (lex config source) ∧
    ∀ t, Occurs t (lex config source) →
      ∃ left after, source = left ++ (t.text ++ after) ∧
        t.span = ⟨Text.size left, Text.size left + Text.size t.text⟩ ∧ t.Munched config after := by
  refine ⟨Checked.lex_eq config hfit, fun t ht => ?_⟩
  obtain ⟨left, after, hsource, hspan⟩ := exists_place ht
  have hstart : t.span.start = Text.size left := congrArg Span.start hspan
  have hstop : t.span.stop = Text.size (left ++ t.text) := by rw [hspan, Text.size_append]
  have hstems := lex_stems config source t ht
  refine ⟨left, after, hsource, hspan, ?_⟩
  cases t with
  | leaf k s l =>
    have hfirst := Piece.CutFrom.first hstems hsource hstart
    exact ⟨hfirst.prior, hfirst.munched⟩
  | group kind s l ts =>
    cases kind with
    | block d =>
      obtain ⟨⟨stop, opener, hopener⟩, start, closer, hcloser⟩ := hstems
      have hfirst := hopener.first hsource hstart
      have hlast := hcloser.first_of_stop (hsource.trans (List.append_assoc ..).symm) hstop
      rw [hcloser.text_closer] at hlast
      exact ⟨hfirst.prior, _, ((framed_lex ht).block d rfl).1, hlast.prior⟩
    | error e =>
      cases e with
      | unclosed d =>
        obtain ⟨stop, opener, hopener⟩ := hstems
        exact (hopener.first hsource hstart).prior
      | stray d => exact (Piece.CutFrom.first hstems hsource hstart).prior
      | unterminatedComment => trivial
    | composite name => exact hstems

/-- A dot behind a number is a symbol when the one behind it starts a number of its own. -/
theorem lex_munches_dots :
    let source : Text := ['1', '.', '.', '2']
    Text.size source ≤ maxOffset ∧ ∃ t, Occurs t (lex .default source) ∧ t.tag = .float ∧
      t.text = ['.', '2'] ∧
      ∃ left after, source = left ++ (t.text ++ after) ∧
        t.span = ⟨Text.size left, Text.size left + Text.size t.text⟩ ∧
        t.Munched .default after := by
  intro source
  have hfit : Text.size source ≤ maxOffset := by decide
  have ht : Occurs ((lex .default source).get ⟨2, by decide +kernel⟩) (lex .default source) :=
    .here (List.get_mem ..)
  exact ⟨hfit, _, ht, by decide +kernel, by decide +kernel, (lex_munches .default hfit).2 _ ht⟩

/-- One letter more than there are offsets: the name that starts with the first of them is followed
by the last. -/
theorem lex_munches_fails_beyond :
    let source : Text := List.replicate (maxOffset + 1) 'a'
    ∃ tokens, Checked.lex .default source = .ok tokens ∧
      ¬ ∀ t, Occurs t tokens →
        ∃ left after, source = left ++ (t.text ++ after) ∧
          t.span = ⟨Text.size left, Text.size left + Text.size t.text⟩ ∧
          t.Munched .default after := by
  intro source
  obtain ⟨first, second, hfirst, -, -, -, hlex⟩ := Checked.lex_letters
  refine ⟨_, hlex, fun h => ?_⟩
  obtain ⟨left, after, hsource, hspan, -, hmunched⟩ := h _ (.here List.mem_cons_self)
  have hleft : left = [] := by
    by_contra hne
    have hpos := Text.size_pos hne
    have hstart : 0 = Text.size left := congrArg Span.start hspan
    omega
  have htext : (leaf .ident ⟨0, maxOffset⟩ (.ofView first)).text = List.replicate maxOffset 'a' :=
    (Lexeme.text_ofView first).trans hfirst
  rw [hleft, htext, List.nil_append] at hsource
  have hafter : after = ['a'] := by
    have hsource : List.replicate (maxOffset + 1) 'a' = _ := hsource
    rw [List.replicate_succ'] at hsource
    exact (List.append_cancel_left hsource).symm
  rw [hafter] at hmunched
  exact Text.IsRun.stops hmunched 'a' rfl rfl

end TokenTree
