import TokenTree.Proofs.Documents
import TokenTree.Proofs.Faults

/-!
# Which settings are accepted

Settings are accepted if each comment style starts with something, ends with something and starts
like no other, and if each operator has at least two characters, all of them allowed. Other settings
are refused for the first comment style that is at fault (`CommentStyle.Fault`), and only if there
is none for the first operator that is (`Settings.OperatorFault`). The check passes over what has no
fault, and stops where there is one (`checks_checkStyles`, `checks_checkOperators`).
-/

namespace TokenTree

namespace CommentStyle

variable {earlier styles : List CommentStyle} {style : CommentStyle} {e : ConfigError}

/-! ## Comment styles -/

/-- The style starts with something, and does not end with nothing. -/
def Sound (style : CommentStyle) : Prop := style.start ≠ [] ∧ style.close ≠ some []

/-- What is wrong with a comment style that stands after the earlier ones. Of several things the
first one counts: that it starts with nothing, ends with nothing, or starts like another. -/
inductive Fault (earlier : List CommentStyle) (style : CommentStyle) : ConfigError → Prop
  | emptyStart (hstart : style.start = []) : Fault earlier style (.emptyCommentStart earlier.length)
  | emptyEnd (hstart : style.start ≠ []) (hclose : style.close = some []) :
    Fault earlier style (.emptyCommentEnd style.start)
  | duplicateStart (hsound : style.Sound) (hstart : style.start ∈ earlier.map start) :
    Fault earlier style (.duplicateCommentStart style.start)

theorem not_fault_iff :
    (∀ e, ¬ style.Fault earlier e) ↔ style.Sound ∧ style.start ∉ earlier.map start := by
  constructor
  · intro h
    have hstart : style.start ≠ [] := fun hstart => h _ (.emptyStart hstart)
    have hclose : style.close ≠ some [] := fun hclose => h _ (.emptyEnd hstart hclose)
    exact ⟨⟨hstart, hclose⟩, fun hdup => h _ (.duplicateStart ⟨hstart, hclose⟩ hdup)⟩
  · rintro ⟨⟨hstart, hclose⟩, hdup⟩ e he
    cases he with
    | emptyStart h => exact hstart h
    | emptyEnd _ h => exact hclose h
    | duplicateStart _ h => exact hdup h

theorem any_start_eq_true_iff :
    earlier.reverse.any (·.start = style.start) = true ↔ style.start ∈ earlier.map start := by
  rw [List.any_reverse, List.any_eq_true, List.mem_map]
  simp only [decide_eq_true_eq]

/-- The check of comment styles stops at the first fault. -/
theorem checks_checkStyles : Checks Fault fun seen => Settings.checkStyles seen.reverse where
  nil _ := rfl
  fault {seen style e} h items := by
    cases h with
    | emptyStart hstart => simp [Settings.checkStyles, hstart]
    | emptyEnd hstart hclose => simp [Settings.checkStyles, hstart, hclose]
    | duplicateStart hsound hstart =>
      simp only [Settings.checkStyles, if_neg hsound.1, if_neg hsound.2,
        if_pos (any_start_eq_true_iff.2 hstart)]
  sound {seen style} h items := by
    obtain ⟨hsound, hstart⟩ := not_fault_iff.1 h
    simp only [Settings.checkStyles, if_neg hsound.1, if_neg hsound.2,
      if_neg (mt any_start_eq_true_iff.1 hstart), List.reverse_append, List.reverse_singleton,
      List.singleton_append]

theorem checkStyles_eq_ok_iff : Settings.checkStyles [] styles = .ok () ↔ Faultless Fault styles :=
  checks_checkStyles.eq_ok_iff

theorem checkStyles_eq_error_iff :
    Settings.checkStyles [] styles = .error e ↔ FirstFault Fault styles e :=
  checks_checkStyles.eq_error_iff

theorem faultless_iff :
    Faultless Fault styles ↔ (∀ style ∈ styles, style.Sound) ∧ (styles.map start).Nodup :=
  faultless_iff_of_key fun _ _ => not_fault_iff

end CommentStyle

namespace Settings

variable {Allowed : Char → Prop} {operator : Text} {operators : List Text} {s : Settings}
  {e : ConfigError}

/-! ## Operators -/

/-- What is wrong with an operator: that it is too short, or else its first character that is not
allowed. -/
inductive OperatorFault (Allowed : Char → Prop) (operator : Text) : ConfigError → Prop
  | tooShort (hlength : operator.length < 2) :
    OperatorFault Allowed operator (.operatorTooShort operator)
  | char {before after : Text} {c : Char} (hlength : 2 ≤ operator.length)
    (hsplit : operator = before ++ c :: after) (hbefore : ∀ d ∈ before, Allowed d)
    (hc : ¬ Allowed c) : OperatorFault Allowed operator (.operatorChar operator c)

theorem find?_eq_some_iff (hs : ∀ c, s.isOperatorChar c = true ↔ Allowed c) {c : Char} :
    operator.find? (!s.isOperatorChar ·) = some c ↔
      ∃ before after, operator = before ++ c :: after ∧ (∀ d ∈ before, Allowed d) ∧
        ¬ Allowed c := by
  simp only [List.find?_eq_some_iff_append, Bool.not_eq_true', Bool.not_not, hs,
    ← Bool.not_eq_true]
  constructor
  · rintro ⟨hc, before, after, hsplit, hbefore⟩
    exact ⟨before, after, hsplit, hbefore, hc⟩
  · rintro ⟨before, after, hsplit, hbefore, hc⟩
    exact ⟨hc, before, after, hsplit, hbefore⟩

theorem find?_eq_none_iff (hs : ∀ c, s.isOperatorChar c = true ↔ Allowed c) :
    operator.find? (!s.isOperatorChar ·) = none ↔ ∀ c ∈ operator, Allowed c := by
  simp only [List.find?_eq_none, Bool.not_eq_true', Bool.not_eq_false, hs]

theorem not_operatorFault_iff (hs : ∀ c, s.isOperatorChar c = true ↔ Allowed c) :
    (∀ e, ¬ OperatorFault Allowed operator e) ↔
      2 ≤ operator.length ∧ ∀ c ∈ operator, Allowed c := by
  constructor
  · intro h
    have hlength : 2 ≤ operator.length := Nat.not_lt.1 fun hlength => h _ (.tooShort hlength)
    refine ⟨hlength, (find?_eq_none_iff hs).1 (Option.eq_none_iff_forall_ne_some.2 ?_)⟩
    intro c hc
    obtain ⟨before, after, hsplit, hbefore, hc⟩ := (find?_eq_some_iff hs).1 hc
    exact h _ (.char hlength hsplit hbefore hc)
  · rintro ⟨hlength, hallowed⟩ e he
    cases he with
    | tooShort h => exact Nat.not_lt.2 hlength h
    | char _ hsplit _ hc =>
      rw [hsplit] at hallowed
      exact hc (hallowed _ (List.mem_append_right _ List.mem_cons_self))

/-- The check of operators stops at the first fault. -/
theorem checks_checkOperators (hs : ∀ c, s.isOperatorChar c = true ↔ Allowed c) :
    Checks (fun _ => OperatorFault Allowed) fun _ => s.checkOperators where
  nil _ := rfl
  fault {seen operator e} h items := by
    cases h with
    | tooShort hlength => simp only [checkOperators, if_pos hlength]
    | char hlength hsplit hbefore hc =>
      have hfind := (find?_eq_some_iff hs).2 ⟨_, _, hsplit, hbefore, hc⟩
      simp only [checkOperators, if_neg (Nat.not_lt.2 hlength), hfind]
  sound {seen operator} h items := by
    obtain ⟨hlength, hallowed⟩ := (not_operatorFault_iff hs).1 h
    simp only [checkOperators, if_neg (Nat.not_lt.2 hlength), (find?_eq_none_iff hs).2 hallowed]

theorem faultless_operatorFault_iff (hs : ∀ c, s.isOperatorChar c = true ↔ Allowed c) :
    Faultless (fun _ => OperatorFault Allowed) operators ↔
      ∀ operator ∈ operators, 2 ≤ operator.length ∧ ∀ c ∈ operator, Allowed c :=
  faultless_iff_forall fun _ _ => not_operatorFault_iff hs

/-- Operators are accepted exactly if each has at least two characters, all of them such as may be
part of an operator. -/
theorem checkOperators_eq_ok_iff :
    s.checkOperators operators = .ok () ↔
      ∀ operator ∈ operators, 2 ≤ operator.length ∧ ∀ c ∈ operator, s.isOperatorChar c = true := by
  have hs (c : Char) : s.isOperatorChar c = true ↔ s.isOperatorChar c = true := Iff.rfl
  exact (checks_checkOperators hs).eq_ok_iff.trans (faultless_operatorFault_iff hs)

/-! ## Settings -/

theorem check_eq_ok_iff (hs : ∀ c, s.isOperatorChar c = true ↔ Allowed c) :
    s.check = .ok () ↔ Faultless CommentStyle.Fault s.styles ∧
      Faultless (fun _ => OperatorFault Allowed) s.operators := by
  rw [← CommentStyle.checkStyles_eq_ok_iff, ← (checks_checkOperators hs).eq_ok_iff, check]
  cases checkStyles [] s.styles with
  | ok => exact ⟨fun h => ⟨rfl, h⟩, And.right⟩
  | error e =>
    constructor
    · intro h
      cases h
    · rintro ⟨h, -⟩
      cases h

/-- Operators are looked at only if the comment styles have no fault. -/
theorem check_eq_error_iff (hs : ∀ c, s.isOperatorChar c = true ↔ Allowed c) :
    s.check = .error e ↔ FirstFault CommentStyle.Fault s.styles e ∨
      Faultless CommentStyle.Fault s.styles ∧
        FirstFault (fun _ => OperatorFault Allowed) s.operators e := by
  rw [← CommentStyle.checkStyles_eq_ok_iff, ← CommentStyle.checkStyles_eq_error_iff,
    ← (checks_checkOperators hs).eq_error_iff, check]
  cases checkStyles [] s.styles with
  | ok =>
    constructor
    · intro h
      exact Or.inr ⟨rfl, h⟩
    · rintro (h | ⟨-, h⟩)
      · cases h
      · exact h
  | error e' =>
    constructor
    · intro h
      exact Or.inl h
    · rintro (h | ⟨h, -⟩)
      · exact h
      · cases h

theorem isOperatorChar_ofList {symbols : Text} (hs : s.symbols = .ofList symbols) (c : Char) :
    s.isOperatorChar c = true ↔ c ∈ symbols ∨ c ∈ operatorAtoms := by
  rw [isOperatorChar, Bool.or_eq_true, hs, SymbolSet.contains_ofList, List.contains_iff_mem]

theorem build_eq_ok_iff {config : Config} :
    s.build = .ok config ↔ s.check = .ok () ∧ config.toSettings = s := by
  unfold build
  split
  · next hcheck =>
    constructor
    · rintro ⟨⟩
      exact ⟨hcheck, rfl⟩
    · rintro ⟨-, rfl⟩
      rfl
  · next hcheck =>
    rw [hcheck]
    exact ⟨nofun, fun h => nomatch h.1⟩

theorem build_eq_error_iff : s.build = .error e ↔ s.check = .error e := by
  unfold build
  split
  · next hcheck => exact ⟨nofun, fun h => nomatch hcheck.symm.trans h⟩
  · next hcheck => rw [hcheck, Except.error.injEq, Except.error.injEq]

/-- Settings are accepted as they are if no comment style and no operator has a fault, and otherwise
refused for the first fault of a comment style, or else of an operator. A document that asks for
them fares alike, and there is one. -/
theorem build_finds_first_fault (symbols : Text) (styles : List CommentStyle)
    (operators : List Text) :
    let settings : Settings := ⟨.ofList symbols, styles, operators⟩
    ((∃ config, settings.build = .ok config) ↔
      (∀ style ∈ styles, style.start ≠ [] ∧ style.close ≠ some []) ∧
        (styles.map CommentStyle.start).Nodup ∧
        ∀ operator ∈ operators, 2 ≤ operator.length ∧
          ∀ c ∈ operator, c ∈ symbols ∨ c ∈ ['/', '*', '.', '\\']) ∧
    (∀ config, settings.build = .ok config → config.toSettings = settings) ∧
    (∀ e, settings.build = .error e ↔ FirstFault CommentStyle.Fault styles e ∨
      Faultless CommentStyle.Fault styles ∧
        FirstFault (fun _ => OperatorFault fun c => c ∈ symbols ∨ c ∈ operatorAtoms) operators e) ∧
    (Document.ofParts symbols styles operators).Describes symbols styles operators ∧
    ∀ d, Document.Describes d symbols styles operators →
      Config.load d = settings.build.mapError .rejected := by
  intro settings
  have hs (c : Char) : settings.isOperatorChar c = true ↔ c ∈ symbols ∨ c ∈ operatorAtoms :=
    isOperatorChar_ofList rfl c
  refine ⟨?_, fun config h => (build_eq_ok_iff.1 h).2, fun e => ?_,
    Document.describes_ofParts symbols styles operators, fun d => Config.load_eq_build⟩
  · have haccepted : (∃ config, settings.build = .ok config) ↔ settings.check = .ok () := by
      constructor
      · rintro ⟨config, h⟩
        exact (build_eq_ok_iff.1 h).1
      · intro h
        exact ⟨⟨settings, h⟩, build_eq_ok_iff.2 ⟨h, rfl⟩⟩
    rw [haccepted, check_eq_ok_iff hs, CommentStyle.faultless_iff, faultless_operatorFault_iff hs,
      and_assoc]
    rfl
  · exact build_eq_error_iff.trans (check_eq_error_iff hs)

end Settings

end TokenTree
