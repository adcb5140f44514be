import TokenTree.Proofs.Detach

/-!
# Strings are between their quotes

A string in which the scanner is starts with its quote and was searched up to a byte between
characters (`Mode.Quoted`). A scan comes to rest in a mode of this kind if it starts in one
(`Scans.quoted_stop`), and then each string that it cuts off ends with the quote it starts with
(`Scan.ofBuffer_wrapped`).
-/

namespace TokenTree

/-! ## The mode -/

/-- A string starts with its quote and was searched up to a byte between characters. -/
def Mode.Quoted (text : Text) : Mode → Prop
  | .string quote scanned _ => ∃ inside unseen, text = (quote.char :: inside) ++ unseen ∧
      scanned = Text.size (quote.char :: inside)
  | _ => True

theorem Mode.Quoted.append {text : Text} {mode : Mode} (h : mode.Quoted text) (more : Text) :
    mode.Quoted (text ++ more) := by
  cases mode with
  | string quote scanned escaped =>
    obtain ⟨inside, unseen, rfl, hscanned⟩ := h
    exact ⟨inside, unseen ++ more, List.append_assoc .., hscanned⟩
  | normal => trivial
  | lineComment scanned => trivial
  | blockComment style close scanned => trivial

theorem Quote.size_char (q : Quote) : q.char.utf8Size = 1 := by cases q <;> rfl

section

variable {config : Config} {final : Bool} {mode mode' : Mode} {rest : Text} {run : Option Run}

theorem quoted_enter (h : step config final mode rest = .enter mode') :
    mode'.Quoted rest := by
  obtain ⟨rfl, -⟩ := step_enter h
  have hr := Step.normal_ruled config final rest
  rw [show Step.normal config final rest = .enter mode' from h] at hr
  generalize hs : Step.enter mode' = s at hr
  cases hr with
  | comment index style _ _ =>
    cases hs
    obtain ⟨start, close⟩ := style
    cases close <;> trivial
  | segment cls word after _ _ hm _ =>
    have hseg := Step.segment_segmented config.symbols final cls word after
    rw [← hs] at hseg
    cases hseg with
    | quote q hq =>
      subst hq
      obtain rfl : word = [q.char] := SymbolSet.munch_atom hm
      exact ⟨[], after, SymbolSet.munch_append _ hm, rfl⟩
  | _ => cases hs

theorem quoted_wait (hquoted : mode.Quoted rest)
    (h : step config final mode rest = .wait mode' run) : mode'.Quoted rest := by
  cases mode with
  | normal =>
    obtain ⟨rfl, -⟩ := normal_wait h
    trivial
  | string quote scanned escaped =>
    obtain ⟨inside, unseen, hrest, -⟩ := hquoted
    simp only [step, Step.string] at h
    split at h
    · cases h
    · split at h
      · cases h
      · cases h
        exact ⟨inside ++ unseen, [], by rw [hrest, List.append_nil, List.cons_append], by
          rw [hrest, List.cons_append]⟩
  | lineComment scanned =>
    simp only [step, Step.lineComment] at h
    split at h
    · cases h
    · split at h
      · cases h
      · cases h
        trivial
  | blockComment style close scanned =>
    simp only [step, Step.blockComment] at h
    split at h
    · cases h
    · split at h
      · cases h
      · cases h
        trivial

theorem Scans.quoted_stop {cuts : List Cut} {stop : Stop}
    (hquoted : mode.Quoted rest) (h : Scans config final mode rest cuts stop) :
    stop.mode.Quoted stop.rest := by
  induction h with
  | piece _ _ ih => exact ih trivial
  | enter hstep _ ih => exact ih (quoted_enter hstep)
  | wait hstep => exact quoted_wait hquoted hstep
  | done _ => exact hquoted

end

/-! ## The pieces -/

/-- Leaves of the kind are strings or comments. -/
def LeafKind.isDelimited : LeafKind → Bool
  | string _ => true
  | comment _ => true
  | _ => false

/-- A string is between its quotes. -/
def Piece.Wrapped (p : Piece) : Prop :=
  ∀ q, p.kind = .leaf (.string q) → ∃ inside, p.lexeme.text = q.char :: (inside ++ [q.char])

namespace Step

variable {config : Config} {symbols : SymbolSet} {final : Bool} {rest : Text}

theorem take_of_findQuote {quote : Char} {escaped : Bool} {count n : Nat} {t : Text}
    (h : findQuote quote escaped count t = .closed n) :
    ∃ inside, t.take (n - count) = inside ++ [quote] := by
  induction t generalizing escaped count with
  | nil => cases h
  | cons c t ih =>
    have hgoes {escaped : Bool} (h : findQuote quote escaped (count + 1) t = .closed n) :
        ∃ inside, (c :: t).take (n - count) = inside ++ [quote] := by
      obtain ⟨inside, htake⟩ := ih h
      have hlt := (count_le_of_findQuote h).1
      have hcount : n - count = n - (count + 1) + 1 := by omega
      exact ⟨c :: inside, by rw [hcount, List.take_succ_cons, htake, List.cons_append]⟩
    rw [findQuote] at h
    split at h
    · exact hgoes h
    · split at h
      · exact hgoes h
      · split at h
        · next hquote =>
          cases h
          exact ⟨[], by rw [Nat.add_sub_cancel_left, hquote]; rfl⟩
        · exact hgoes h

/-- A segment by itself is no string and no comment. -/
theorem segment_ne_delimited {cls : CharClass} {word after : Text} {k : LeafKind} {count : Nat}
    (hk : k.isDelimited = true) :
    segment symbols final cls word after ≠ .piece (.leaf k) count := by
  have hdot : dot symbols final after ≠ .piece (.leaf k) count := by
    unfold dot
    intro h
    split at h <;> cases h <;> cases hk
  have hnumber : number symbols final word.length after ≠ .piece (.leaf k) count := by
    unfold number
    intro h
    repeat' split at h
    all_goals cases h
    all_goals cases hk
  have hwhole {k' : LeafKind} (hk' : k'.isDelimited = false) :
      Step.piece (.leaf k') word.length ≠ .piece (.leaf k) count := by
    intro h
    cases h
    rw [hk] at hk'
    cases hk'
  cases cls with
  | atom a =>
    cases a with
    | dot => exact hdot
    | opening d => exact nofun
    | closing d => exact nofun
    | quote q => exact nofun
    | backslash => exact hwhole rfl
    | slash => exact hwhole rfl
    | asterisk => exact hwhole rfl
  | run r =>
    cases r with
    | digits => exact hnumber
    | text => exact hwhole rfl
    | whitespace => exact hwhole rfl
  | newline => exact hwhole rfl
  | symbol => exact hwhole rfl

end Step

section

variable {config : Config} {final : Bool} {mode : Mode} {rest : Text}

theorem step_string {q : Quote} {count : Nat} (hquoted : mode.Quoted rest)
    (h : step config final mode rest = .piece (.leaf (.string q)) count) :
    ∃ inside, rest.take count = q.char :: (inside ++ [q.char]) := by
  cases mode with
  | normal =>
    have hr := Step.normal_ruled config final rest
    rw [show Step.normal config final rest = _ from h] at hr
    generalize hs : Step.piece (.leaf (.string q)) count = s at hr
    cases hr with
    | segment cls word after _ _ _ _ => exact absurd hs.symm (Step.segment_ne_delimited rfl)
    | _ => cases hs
  | string quote scanned escaped =>
    obtain ⟨inside, unseen, hrest, rfl⟩ := hquoted
    have hseek : rest.seek (Text.size (quote.char :: inside)) =
        ((quote.char :: inside).length, unseen) := by rw [hrest, Text.seek_behind]
    simp only [step, Step.string, hseek] at h
    split at h
    · next n hq =>
      cases h
      obtain ⟨last, htake⟩ := Step.take_of_findQuote hq
      have hle := (Step.count_le_of_findQuote hq).1
      refine ⟨inside ++ last, ?_⟩
      rw [hrest, List.take_append, List.take_of_length_le (Nat.le_of_lt hle), htake,
        List.cons_append, List.append_assoc]
    · split at h <;> cases h
  | lineComment scanned =>
    simp only [step, Step.lineComment] at h
    repeat' split at h
    all_goals cases h
  | blockComment style close scanned =>
    simp only [step, Step.blockComment] at h
    repeat' split at h
    all_goals cases h

theorem Scans.wrapped {cuts : List Cut} {stop : Stop} (hquoted : mode.Quoted rest)
    (h : Scans config final mode rest cuts stop) {c : Cut} (hc : c ∈ cuts) {q : Quote}
    (hkind : c.kind = .leaf (.string q)) : ∃ inside, c.text = q.char :: (inside ++ [q.char]) := by
  induction h with
  | @piece mode rest kind count cuts stop hstep _ ih =>
    rcases List.mem_cons.1 hc with rfl | hc
    · obtain rfl : kind = .leaf (.string q) := hkind
      exact step_string hquoted hstep
    · exact ih trivial hc
  | enter hstep _ ih => exact ih (quoted_enter hstep) hc
  | wait _ => cases hc
  | done _ => cases hc

theorem exists_cut_of_mem {pos : Nat} {ps : List Piece} {cuts : List Cut}
    (h : ps.map Piece.detach = layout pos cuts) {p : Piece} (hp : p ∈ ps) :
    ∃ c ∈ cuts, c.kind = p.kind ∧ c.text = p.lexeme.text := by
  have hmem : p.detach ∈ layout pos cuts := h ▸ List.mem_map_of_mem hp
  clear h hp
  induction cuts generalizing pos with
  | nil => cases hmem
  | cons c cuts ih =>
    rcases List.mem_cons.1 hmem with heq | hmem
    · refine ⟨c, List.mem_cons_self, (congrArg Piece.kind heq).symm, ?_⟩
      have htext := congrArg (fun p => p.lexeme.text) heq
      simpa only [Piece.detach, Lexeme.text_copied] using htext.symm
    · obtain ⟨d, hd, hfields⟩ := ih hmem
      exact ⟨d, List.mem_cons_of_mem c hd, hfields⟩

theorem Scan.ofBuffer_wrapped (config : Config) (final : Bool) (base : Nat) (buffer : Buffer)
    (fits : mode.Fits config buffer.text) (hquoted : mode.Quoted buffer.text) :
    ∀ p ∈ (Scan.ofBuffer config final base mode buffer).pieces, p.Wrapped := by
  intro p hp q hq
  obtain ⟨cuts, hscan, hpieces, -⟩ := ofBuffer_scans config final base buffer fits
  obtain ⟨c, hc, hkind, htext⟩ := exists_cut_of_mem hpieces hp
  rw [← htext]
  exact hscan.wrapped hquoted hc (hkind.trans hq)

end

end TokenTree
