import TokenTree.Proofs.Places

/-!
# Strings end at the first quote that is not escaped

In a string a backslash goes with the character behind it, whatever that is, and all other
characters go by themselves: `Text.signs` reads a text in this way. The scanner, which carries along
whether the next character is escaped, finds the end of a string where this reading first meets the
quote by itself, and finds none where it never does (`Step.findQuote_spec`). So it is with all
strings and all lone quotes of a tree (`lex_quotes`).

Behind the greatest offset strings are found no less, but their spans do not tell where
(`lex_quotes_fails_beyond`).
-/

namespace TokenTree

/-! ## Reading a string -/

/-- The text as it is read in a string: a backslash with the character behind it is one sign, and so
is every other character. -/
def Text.signs : Text → List Text
  | [] => []
  | '\\' :: c :: r => ['\\', c] :: signs r
  | c :: r => [c] :: signs r

namespace Text

theorem signs_escape (c : Char) (r : Text) : signs ('\\' :: c :: r) = ['\\', c] :: signs r := by
  rw [signs]

theorem signs_plain {c : Char} (h : c ≠ '\\') (r : Text) : signs (c :: r) = [c] :: signs r := by
  rw [signs]
  rintro d r' rfl
  exact absurd rfl h

end Text

theorem Quote.char_ne_backslash (q : Quote) : q.char ≠ '\\' := by cases q <;> decide

theorem Quote.char_inj {q q' : Quote} (h : q.char = q'.char) : q = q' := by
  cases q with
  | single =>
    cases q' with
    | single => rfl
    | double => cases h
  | double =>
    cases q' with
    | single => cases h
    | double => rfl

theorem Quote.size_singleton (q : Quote) : Text.size [q.char] = 1 := by
  rw [Text.size_cons, q.size_char, Text.size_nil]

open Text

/-- The search ends behind the first sign that is the quote, if there is one. -/
theorem Step.findQuote_spec {q : Char} (hq : q ≠ '\\') (t : Text) (count : Nat) :
    (∃ inside after, t = inside ++ q :: after ∧
      findQuote q false count t = .closed (count + inside.length + 1) ∧
      signs t = signs inside ++ [q] :: signs after ∧ [q] ∉ signs inside) ∨
    (∃ escaped, findQuote q false count t = .unfinished escaped) ∧ [q] ∉ signs t := by
  fun_induction signs t generalizing count with
  | case1 => exact Or.inr ⟨⟨false, rfl⟩, List.not_mem_nil⟩
  | case2 c r ih =>
    have hstep : findQuote q false count ('\\' :: c :: r) =
        findQuote q false (count + 1 + 1) r := by
      simp only [findQuote, if_true, Bool.false_eq_true, if_false]
    have hsign : [q] ≠ ['\\', c] := by simp
    rw [hstep]
    rcases ih (count + 1 + 1) with ⟨inside, after, rfl, hclosed, hsigns, hmem⟩ | ⟨hopen, hmem⟩
    · refine Or.inl ⟨'\\' :: c :: inside, after, rfl, ?_, ?_, ?_⟩
      · rw [hclosed, List.length_cons, List.length_cons]
        congr 1
        omega
      · rw [hsigns, signs_escape, List.cons_append]
      · rw [signs_escape]
        exact List.not_mem_cons_of_ne_of_not_mem hsign hmem
    · exact Or.inr ⟨hopen, List.not_mem_cons_of_ne_of_not_mem hsign hmem⟩
  | case3 c r hlast ih =>
    by_cases hc : c = '\\'
    · -- a backslash with nothing behind it
      subst hc
      obtain rfl : r = [] := by
        cases r with
        | nil => rfl
        | cons d r => exact absurd rfl (hlast d r rfl)
      exact Or.inr ⟨⟨true, by simp [findQuote]⟩, by simpa [signs] using hq⟩
    · by_cases hquote : c = q
      · subst hquote
        exact Or.inl ⟨[], r, rfl, by simp [findQuote, hc], rfl, List.not_mem_nil⟩
      · have hstep : findQuote q false count (c :: r) = findQuote q false (count + 1) r := by
          simp [findQuote, hc, hquote]
        have hsign : [q] ≠ [c] := by
          intro he
          exact hquote (List.cons.inj he).1.symm
        rw [hstep]
        rcases ih (count + 1) with ⟨inside, after, rfl, hclosed, hsigns, hmem⟩ | ⟨hopen, hmem⟩
        · refine Or.inl ⟨c :: inside, after, rfl, ?_, ?_, ?_⟩
          · rw [hclosed, List.length_cons]
            congr 1
            omega
          · rw [hsigns, signs_plain hc, List.cons_append]
          · rw [signs_plain hc]
            exact List.not_mem_cons_of_ne_of_not_mem hsign hmem
        · exact Or.inr ⟨hopen, List.not_mem_cons_of_ne_of_not_mem hsign hmem⟩

/-! ## Strings and lone quotes as first pieces -/

section

variable {config : Config} {text : Text} {q : Quote} {count : Nat}

/-- A string is up to the first sign that is its quote. -/
theorem FirstPiece.exists_inside (h : FirstPiece config text (.leaf (.string q)) count) :
    ∃ inside after, text = q.char :: (inside ++ q.char :: after) ∧ count = inside.length + 2 ∧
      signs (inside ++ q.char :: after) = signs inside ++ [q.char] :: signs after ∧
      [q.char] ∉ signs inside := by
  cases h with
  | segment _ _ _ hseg => exact absurd hseg (Step.segment_ne_delimited rfl)
  | @string _ tail _ _ _ htext hend =>
    rcases Step.findQuote_spec q.char_ne_backslash tail 1 with
      ⟨inside, after, rfl, hclosed, hsigns, hmem⟩ | ⟨⟨escaped, hopen⟩, -⟩
    · rw [hclosed] at hend
      cases hend
      exact ⟨inside, after, htext, by omega, hsigns, hmem⟩
    · rw [hopen] at hend
      cases hend

/-- Behind a quote that is a symbol no sign is that quote. -/
theorem FirstPiece.not_mem_signs {after : Text}
    (h : FirstPiece config (q.char :: after) (.leaf .symbol) count) : [q.char] ∉ signs after := by
  cases h with
  | segment _ _ hm hseg =>
    have hclass : config.symbols.classOf q.char = .atom (.quote q) := by
      unfold SymbolSet.classOf
      cases q <;> rfl
    rw [SymbolSet.munch_single (by simp [hclass]) (by simp [hclass]), hclass] at hm
    cases hm
    cases hseg
  | quote _ _ htext hend =>
    obtain ⟨hchar, rfl⟩ := List.cons.inj htext
    cases Quote.char_inj hchar
    rcases Step.findQuote_spec q.char_ne_backslash after 1 with
      ⟨inside, rest, -, hclosed, -⟩ | ⟨-, hmem⟩
    · rw [hclosed] at hend
      cases hend
    · exact hmem

end

/-! ## Tokens -/

/-- A string stands between a quote and the first sign behind it that is this quote, and its value
is what is between. Behind a quote that is a symbol there is no such sign in all of the input. -/
def Token.Quoted (source : Text) : Token → Prop
  | leaf (.string q) s l =>
    ∃ left inside after, source = left ++ q.char :: (inside ++ q.char :: after) ∧
      s = ⟨Text.size left, Text.size left + 1 + Text.size inside + 1⟩ ∧
      signs (inside ++ q.char :: after) = signs inside ++ [q.char] :: signs after ∧
      [q.char] ∉ signs inside ∧ l.text = q.char :: (inside ++ [q.char]) ∧
      (leaf (.string q) s l).stringValue? = some inside
  | leaf .symbol s l =>
    ∀ q : Quote, l.text = [q.char] →
      ∃ left after, source = left ++ q.char :: after ∧
        s = ⟨Text.size left, Text.size left + 1⟩ ∧ [q.char] ∉ signs after
  | _ => True

open Token

/-- A string, at any depth of a tree, ends at the first quote of its own kind that no backslash
escapes, and a quote that starts no string has no such quote behind it. -/
theorem lex_quotes (config : Config) {source : Text} (hfit : Text.size source ≤ maxOffset) :
    Checked.lex config source = .ok (lex config source) ∧
      ∀ t, Occurs t (lex config source) → t.Quoted source := by
  refine ⟨Checked.lex_eq config hfit, fun t ht => ?_⟩
  have hstems := lex_stems config source t ht
  cases t with
  | group kind s l ts => trivial
  | leaf k s l =>
    cases k with
    | string q =>
      obtain ⟨left, after, hsource, hstands, hfirst⟩ := hstems
      obtain ⟨inside, rest, htext, hcount, hsigns, hmem⟩ := hfirst.exists_inside
      have hcut : l.text ++ after = (q.char :: (inside ++ [q.char])) ++ rest := by
        rw [List.cons_append, List.append_assoc]
        exact htext
      have hlength : l.text.length = (q.char :: (inside ++ [q.char])).length := by
        simpa using hcount
      obtain ⟨hl, rfl⟩ := List.append_inj hcut hlength
      refine ⟨left, inside, after, ?_, ?_, hsigns, hmem, hl, ?_⟩
      · rw [hsource]
        exact congrArg (left ++ ·) htext
      · have hsize : Text.size l.text = 1 + Text.size inside + 1 := by
          rw [hl, Text.size_cons, Text.size_append, q.size_singleton, q.size_char, Nat.add_assoc]
        have hspan : s = ⟨Text.size left, Text.size left + Text.size l.text⟩ := hstands.span
        rw [hspan, hsize, Nat.add_assoc, Nat.add_assoc, Nat.add_assoc]
      · exact unwrapped?_eq q.size_singleton q.size_singleton hl
    | symbol =>
      obtain ⟨left, after, hsource, hstands, hfirst⟩ := hstems
      intro q hl
      have hl : (⟨.leaf .symbol, s, l⟩ : Piece).lexeme.text = [q.char] := hl
      have hspan := hstands.span
      rw [hl] at hsource hspan hfirst
      refine ⟨left, after, hsource, ?_, hfirst.not_mem_signs⟩
      rw [show s = _ from hspan, q.size_singleton]
    | _ => trivial

/-- An escaped quote and one of the other kind do not end a string, nor does an escaped quote give a
lone one its partner. -/
theorem lex_quotes_escaped :
    let source : Text := ['"', '\\', '"', '\'', '"', '\'', '\\', '\'']
    Text.size source ≤ maxOffset ∧
      ∃ t u, Occurs t (lex .default source) ∧ t.stringValue? = some ['\\', '"', '\''] ∧
        t.Quoted source ∧ Occurs u (lex .default source) ∧ u.tag = .symbol ∧ u.text = ['\''] ∧
        u.Quoted source := by
  intro source
  have hfit : Text.size source ≤ maxOffset := by decide
  have hstring : Occurs ((lex .default source).get ⟨0, by decide +kernel⟩) (lex .default source) :=
    .here (List.get_mem ..)
  have hquote : Occurs ((lex .default source).get ⟨1, by decide +kernel⟩) (lex .default source) :=
    .here (List.get_mem ..)
  exact ⟨hfit, _, _, hstring, by decide +kernel, (lex_quotes .default hfit).2 _ hstring, hquote,
    by decide +kernel, by decide +kernel, (lex_quotes .default hfit).2 _ hquote⟩

/-- Behind more letters than there are offsets a string has a span that is empty, and does not stand
between its quotes. -/
theorem lex_quotes_fails_beyond :
    let source : Text := List.replicate (maxOffset + 1) 'a' ++ ['"', 'x', '"']
    ∃ tokens, Checked.lex .default source = .ok tokens ∧
      ¬ ∀ t, Occurs t tokens → t.Quoted source := by
  intro source
  obtain ⟨first, second, third, -, hlex⟩ := Checked.lex_letters_string
  refine ⟨_, hlex, fun h => ?_⟩
  obtain ⟨left, inside, after, -, hspan, -⟩ := h _ (.here (List.mem_of_getElem? (i := 2) rfl))
  have hstart : maxOffset = Text.size left := congrArg Span.start hspan
  have hstop : maxOffset = Text.size left + 1 + Text.size inside + 1 := congrArg Span.stop hspan
  omega

end TokenTree
