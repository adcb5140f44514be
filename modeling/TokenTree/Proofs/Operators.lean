import TokenTree.Proofs.Munch

/-!
# What operators are made of

An operator may have the characters that are symbols and four atoms (`CharClass.joins`). Which
characters these are is for the classes to say, and there atoms, line breaks, digits and white space
come before the symbols that are configured. The check of a configuration goes by the configured
symbols alone. So the two agree for those sets of symbols that have no other members than may be
part of operators (`SymbolSet.operators_join_iff`); and where a set has a bracket or a quote an
operator may be made of it, and then hides it (`SymbolSet.operators_hide_brackets`).
-/

namespace TokenTree

/-- Characters of the class may be part of an operator. -/
def CharClass.joins : CharClass → Bool
  | symbol => true
  | atom .slash => true
  | atom .asterisk => true
  | atom .dot => true
  | atom .backslash => true
  | _ => false

/-- The character would be a symbol, or one of the atoms that may be part of an operator. -/
def SymbolSet.joins (symbols : SymbolSet) (c : Char) : Bool := (symbols.classOf c).joins

/-! ## Characters of operators -/

namespace SymbolSet

variable {symbols : SymbolSet} {c : Char}

theorem joins_of_operatorAtoms (symbols : SymbolSet) (h : c ∈ Settings.operatorAtoms) :
    symbols.joins c = true := by
  simp only [Settings.operatorAtoms, List.mem_cons, List.not_mem_nil, or_false] at h
  rcases h with rfl | rfl | rfl | rfl <;> rfl

/-- A configured character is of no run of other text. -/
theorem classOf_ne_text (h : symbols.contains c = true) : symbols.classOf c ≠ .run .text := by
  unfold classOf
  rw [if_pos h]
  repeat' split
  all_goals exact nofun

theorem classOf_ne_text_of_joins (h : symbols.joins c = true) :
    symbols.classOf c ≠ .run .text := by
  intro htext
  rw [joins, htext] at h
  cases h

/-- The atoms that join are those that the check of operators allows. -/
theorem isOperatorChar_of_joins {s : Settings} (h : s.symbols.joins c = true) :
    s.isOperatorChar c = true := by
  rw [Settings.isOperatorChar, Bool.or_eq_true]
  unfold joins at h
  cases hclass : s.symbols.classOf c with
  | symbol => exact Or.inl (contains_of_classOf hclass).1
  | run r =>
    rw [hclass] at h
    cases h
  | newline =>
    rw [hclass] at h
    cases h
  | atom a =>
    rw [hclass] at h
    obtain rfl := char_of_classOf hclass
    cases a with
    | slash | asterisk | dot | backslash => exact Or.inr rfl
    | opening d | closing d | quote q => cases h

/-- A character may be part of an operator if the classes say so, or if it is configured. -/
theorem isOperatorChar_iff {s : Settings} :
    s.isOperatorChar c = true ↔ s.symbols.joins c = true ∨ s.symbols.contains c = true := by
  constructor
  · intro h
    rw [Settings.isOperatorChar, Bool.or_eq_true, List.contains_iff_mem] at h
    exact h.symm.imp_left s.symbols.joins_of_operatorAtoms
  · rintro (h | h)
    · exact isOperatorChar_of_joins h
    · rw [Settings.isOperatorChar, h]
      rfl

end SymbolSet

namespace Config

variable {config : Config} {operator : Text} {c : Char}

theorem joins_or_contains (h : operator ∈ config.operators) (hc : c ∈ operator) :
    config.symbols.joins c = true ∨ config.symbols.contains c = true := by
  have haccepted := Settings.checkOperators_eq_ok_iff.1 config.checks.2 operator h
  exact SymbolSet.isOperatorChar_iff.1 (haccepted.2 c hc)

/-- The configuration whose only operator is a configured character twice. -/
def doubled (symbols : SymbolSet) (c : Char) (h : symbols.contains c = true) : Config where
  symbols := symbols
  styles := []
  operators := [[c, c]]
  accepted := by
    show Settings.checkOperators _ [[c, c]] = .ok ()
    rw [Settings.checkOperators_eq_ok_iff, List.forall_mem_singleton]
    refine ⟨Nat.le_refl 2, fun d hd => ?_⟩
    obtain rfl : d = c := by simpa using hd
    exact SymbolSet.isOperatorChar_iff.2 (Or.inr h)

end Config

/-! ## Operators of trees -/

open Token

section

variable {config : Config}

/-- An operator of a tree is one that is configured. -/
theorem mem_operators_of_lex {source : Text} {t : Token} (ht : Occurs t (lex config source))
    (htag : t.tag = .operator) : t.text ∈ config.operators := by
  have hstems := lex_stems config source t ht
  cases t with
  | leaf k s l =>
    cases k with
    | operator =>
      obtain ⟨left, after, -, -, hfirst⟩ := hstems
      have hmunched : LeafKind.operator.Munched config l.text after := FirstPiece.munched hfirst
      exact hmunched.1
    | _ => cases htag
  | group kind s l ts => cases kind <;> cases htag

/-- An operator by itself is an operator, where no comment goes before it. -/
theorem exists_operator_lex {operator : Text} (hmem : operator ∈ config.operators)
    (hcomment : config.commentAt operator true = .absent) :
    ∃ t, Occurs t (lex config operator) ∧ t.tag = .operator ∧ t.text = operator := by
  obtain ⟨index, other, hfound, rfl⟩ :
      ∃ index other, config.operatorAt operator true = .found index other ∧ other = operator :=
    @PrefixMatch.find_whole _ id _ _ hmem
  obtain ⟨ps, hgroups, hlaid, htext, hcut⟩ := exists_groups_lex config other
  cases ps with
  | nil =>
    have hlength := config.two_le_length hmem
    rw [← htext] at hlength
    exact absurd hlength (by decide)
  | cons p ps =>
    obtain ⟨kind, s, l⟩ := p
    have hfirst : FirstPiece config other kind l.text.length :=
      (hcut _ List.mem_cons_self).first (List.nil_append _).symm hlaid.1.start_eq
    rw [textOf_cons] at htext
    generalize hcount : l.text.length = count at hfirst
    -- nothing but an operator starts where an operator is found
    cases hfirst with
    | lineComment hc _ _ => cases hcomment.symm.trans hc
    | blockComment hc _ _ _ => cases hcomment.symm.trans hc
    | unterminated hc _ _ _ => cases hcomment.symm.trans hc
    | string _ ho _ _ => cases hfound.symm.trans ho
    | quote _ ho _ _ => cases hfound.symm.trans ho
    | segment _ ho _ _ => cases hfound.symm.trans ho
    | operator _ ho =>
      cases hfound.symm.trans ho
      generalize lex config other = tree at hgroups
      cases hgroups with
      | leaf hrest =>
        refine ⟨_, .here List.mem_cons_self, rfl, ?_⟩
        exact (List.append_inj (htext.trans (List.append_nil _).symm) hcount).1

end

namespace SymbolSet

variable {symbols : SymbolSet}

theorem joins_of_operator (hall : ∀ c ∈ symbols.chars, symbols.joins c = true) {config : Config}
    (hsymbols : config.symbols = symbols) {operator : Text} (hmem : operator ∈ config.operators) :
    ∀ c ∈ operator, symbols.joins c = true := by
  subst hsymbols
  intro c hc
  rcases config.joins_or_contains hmem hc with h | h
  · exact h
  · exact hall c (contains_iff.1 h)

/-- What no operator may hide in a tree is no member of the set. -/
theorem joins_of_lex
    (h : ∀ config : Config, config.symbols = symbols → ∀ source t, Occurs t (lex config source) →
      t.tag = .operator → ∀ c ∈ t.text, symbols.joins c = true) :
    ∀ c ∈ symbols.chars, symbols.joins c = true := by
  intro c hc
  have hmem : [c, c] ∈ (Config.doubled symbols c (contains_iff.2 hc)).operators :=
    List.mem_singleton_self _
  obtain ⟨t, ht, htag, htext⟩ := exists_operator_lex hmem rfl
  refine h _ rfl _ t ht htag c ?_
  rw [htext]
  exact List.mem_cons_self

/-- The operators of all configurations with a set of symbols are made of characters that would be
symbols, slashes, asterisks, dots or backslashes, and the operators of all trees are, exactly if the
set has no other members than these. Whatever the set, operators have no characters of other text,
and what else they have are members of it; and the operators of trees are those configured. -/
theorem operators_join_iff (symbols : SymbolSet) :
    ((∀ config : Config, config.symbols = symbols →
        ∀ operator ∈ config.operators, ∀ c ∈ operator, symbols.joins c = true) ↔
      ∀ c ∈ symbols.chars, symbols.joins c = true) ∧
    ((∀ config : Config, config.symbols = symbols → ∀ source t, Occurs t (lex config source) →
        t.tag = .operator → ∀ c ∈ t.text, symbols.joins c = true) ↔
      ∀ c ∈ symbols.chars, symbols.joins c = true) ∧
    ∀ config : Config, config.symbols = symbols →
      (∀ operator ∈ config.operators, ∀ c ∈ operator,
        symbols.classOf c ≠ .run .text ∧ (symbols.joins c = true ∨ c ∈ symbols.chars)) ∧
      ∀ source t, Occurs t (lex config source) → t.tag = .operator →
        t.text ∈ config.operators := by
  have htrees (hall : ∀ c ∈ symbols.chars, symbols.joins c = true) (config : Config)
      (hsymbols : config.symbols = symbols) (source : Text) (t : Token)
      (ht : Occurs t (lex config source)) (htag : t.tag = .operator) :
      ∀ c ∈ t.text, symbols.joins c = true :=
    joins_of_operator hall hsymbols (mem_operators_of_lex ht htag)
  refine ⟨⟨fun h => ?_, fun hall config hsymbols operator hmem => ?_⟩, ⟨joins_of_lex, htrees⟩, ?_⟩
  · refine joins_of_lex fun config hsymbols source t ht htag => ?_
    exact h config hsymbols t.text (mem_operators_of_lex ht htag)
  · exact joins_of_operator hall hsymbols hmem
  · rintro config rfl
    refine ⟨fun operator hmem c hc => ?_, fun source t ht htag => mem_operators_of_lex ht htag⟩
    rcases config.joins_or_contains hmem hc with h | h
    · exact ⟨classOf_ne_text_of_joins h, Or.inl h⟩
    · exact ⟨classOf_ne_text h, Or.inr (contains_iff.1 h)⟩

/-- The symbols that are configured by default are all such as may be part of operators. -/
example : Settings.default.symbols.chars.all Settings.default.symbols.joins = true := by
  decide

/-- With a bracket among the symbols an operator of two brackets is accepted. It takes them before
they can open a block, and what would close it is malformed. -/
theorem operators_hide_brackets :
    let config : Config := ⟨⟨.ofList ['('], [], [['(', '(']]⟩, rfl⟩
    ['(', '('] ∈ config.operators ∧ config.symbols.classOf '(' = .atom (.opening .paren) ∧
      config.symbols.joins '(' = false ∧
      ∃ t, Occurs t (lex config ['(', '(', 'a', ')', ')']) ∧ t.tag = .operator ∧
        t.text = ['(', '('] := by
  intro config
  refine ⟨List.mem_singleton_self _, rfl, rfl, ?_⟩
  refine ⟨(lex config ['(', '(', 'a', ')', ')']).get ⟨0, by decide +kernel⟩, ?_, ?_, ?_⟩
  · exact .here (List.get_mem ..)
  · decide +kernel
  · decide +kernel

end SymbolSet

end TokenTree
